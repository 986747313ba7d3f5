import Mathlib.Tactic
import MatrixLisp.Value.Dict

/-!
# Dictionaries without repeated keys

Setting a value never repeats a key: either the key stands for an entry that is there, or it comes
last. A dictionary in which no key stands for a later one is therefore rebuilt, entry by entry, when
its entries are set again in order.
-/
namespace MatrixLisp.Dict

/-- No key stands for the key of a later entry. -/
def Distinct (d : Dict) : Prop := d.Pairwise fun a b => isKey a.1 b.1 = false

/-- Without repeated keys, no other values make repeated keys. -/
theorem Distinct.of_keys {d d' : Dict} (h : d.Distinct)
    (hkeys : d'.map Prod.fst = d.map Prod.fst) : d'.Distinct := by
  have hpairwise : (d.map Prod.fst).Pairwise fun a b => isKey a b = false := List.pairwise_map.mpr h
  rw [← hkeys] at hpairwise
  exact List.pairwise_map.mp hpairwise

theorem find?_cons (e : Value × Value) (d : Dict) (key : Value) :
    find? (e :: d) key = if isKey e.1 key then some e.2 else d.find? key := by
  rw [find?, List.find?_cons]
  cases isKey e.1 key <;> rfl

/-- Keys that stand for the same entries find the same value. -/
theorem find?_congr {d : Dict} {a b : Value} (h : ∀ e ∈ d, isKey e.1 a = isKey e.1 b) :
    d.find? a = d.find? b := by
  induction d with
  | nil => rfl
  | cons first rest ih =>
    rw [find?_cons, find?_cons, h first (by simp), ih fun e he => h e (by simp [he])]

theorem exists_mem_of_find? {d : Dict} {key value : Value} (h : d.find? key = some value) :
    ∃ e ∈ d, isKey e.1 key = true ∧ e.2 = value := by
  obtain ⟨e, he, rfl⟩ := Option.map_eq_some_iff.mp h
  have hkey := List.find?_some (p := fun entry : Value × Value => isKey entry.1 key) he
  exact ⟨e, List.mem_of_find?_eq_some he, hkey, rfl⟩

/-- What holds of all keys and of all values still does after one more entry. -/
theorem forall_insert {P Q : Value → Prop} {d : Dict} {key value : Value}
    (hd : ∀ e ∈ d, P e.1 ∧ Q e.2) (hkey : P key) (hvalue : Q value) :
    ∀ e ∈ d.insert key value, P e.1 ∧ Q e.2 := by
  induction d with
  | nil =>
    intro e he
    rw [List.mem_singleton.mp he]
    exact ⟨hkey, hvalue⟩
  | cons first rest ih =>
    have hfirst := hd first (by simp)
    have hrest : ∀ e ∈ rest, P e.1 ∧ Q e.2 := fun e he => hd e (by simp [he])
    intro e he
    unfold insert at he
    split_ifs at he with h
    · rcases List.mem_cons.mp he with rfl | he
      · exact ⟨hfirst.1, hvalue⟩
      · exact hrest e he
    · rcases List.mem_cons.mp he with rfl | he
      · exact hfirst
      · exact ih hrest e he

theorem forall_foldl_insert {P Q : Value → Prop} {d : Dict} {entries : List (Value × Value)}
    (hd : ∀ e ∈ d, P e.1 ∧ Q e.2) (h : ∀ e ∈ entries, P e.1 ∧ Q e.2) :
    ∀ e ∈ entries.foldl (fun d (entry : Value × Value) => d.insert entry.1 entry.2) d,
      P e.1 ∧ Q e.2 := by
  induction entries generalizing d with
  | nil => exact hd
  | cons first rest ih =>
    have hfirst := h first (by simp)
    exact ih (forall_insert hd hfirst.1 hfirst.2) fun e he => h e (by simp [he])

/-- The keys and the values of a dictionary are among those that were set. -/
theorem forall_ofList {P Q : Value → Prop} {entries : List (Value × Value)}
    (h : ∀ e ∈ entries, P e.1 ∧ Q e.2) : ∀ e ∈ ofList entries, P e.1 ∧ Q e.2 :=
  forall_foldl_insert (by simp) h

theorem forall_keys_ofList {K : Value → Prop} {entries : List (Value × Value)}
    (h : ∀ e ∈ entries, K e.1) : ∀ e ∈ ofList entries, K e.1 := fun e he =>
  (forall_ofList (P := K) (Q := fun _ => True) (fun e he => ⟨h e he, trivial⟩) e he).1

theorem Distinct.insert {d : Dict} (h : Distinct d) (key value : Value) :
    Distinct (d.insert key value) := by
  induction d with
  | nil => exact List.pairwise_singleton _ _
  | cons first rest ih =>
    obtain ⟨hfirst, hrest⟩ := List.pairwise_cons.mp h
    unfold Dict.insert
    split_ifs with hkey
    · exact List.pairwise_cons.mpr ⟨hfirst, hrest⟩
    · have hnot : isKey first.1 key = false := by simpa using hkey
      have hkeys : ∀ e ∈ Dict.insert rest key value, isKey first.1 e.1 = false ∧ True :=
        forall_insert (P := fun k => isKey first.1 k = false) (Q := fun _ => True)
          (fun e he => ⟨hfirst e he, trivial⟩) hnot trivial
      exact List.pairwise_cons.mpr ⟨fun e he => (hkeys e he).1, ih hrest⟩

theorem distinct_ofList (entries : List (Value × Value)) : Distinct (ofList entries) := by
  suffices h : ∀ d : Dict, Distinct d →
      Distinct (entries.foldl (fun d (entry : Value × Value) => d.insert entry.1 entry.2) d) from
    h [] List.Pairwise.nil
  induction entries with
  | nil => exact fun d hd => hd
  | cons first rest ih => exact fun d hd => ih _ (hd.insert first.1 first.2)

/-- A key that stands for no entry comes last. -/
theorem insert_of_forall_not_isKey {d : Dict} {key : Value}
    (h : ∀ e ∈ d, isKey e.1 key = false) (value : Value) :
    d.insert key value = d ++ [(key, value)] := by
  induction d with
  | nil => rfl
  | cons first rest ih =>
    rw [insert, if_neg (by simp [h first (by simp)]), ih fun e he => h e (by simp [he])]
    rfl

/-- Without repeated keys, setting all entries again in order gives the same dictionary. -/
theorem ofList_of_distinct {d : Dict} (h : Distinct d) : ofList d = d := by
  suffices hfold : ∀ (rest front : Dict), Distinct (front ++ rest) →
      rest.foldl (fun d (entry : Value × Value) => d.insert entry.1 entry.2) front =
        front ++ rest from hfold d [] h
  intro rest
  induction rest with
  | nil => simp
  | cons first rest ih =>
    intro front hfront
    have hnew : ∀ e ∈ front, isKey e.1 first.1 = false := fun e he =>
      (List.pairwise_append.mp hfront).2.2 e he first (by simp)
    rw [List.foldl_cons, insert_of_forall_not_isKey hnew]
    have hmoved := ih (front ++ [first]) (by simpa using hfront)
    simpa using hmoved

/-- Keys and values by turns, as they stand in a map literal. -/
def flatten (d : Dict) : List Value := d.flatMap fun e => [e.1, e.2]

@[simp] theorem flatten_nil : flatten [] = [] := rfl

@[simp] theorem flatten_cons (e : Value × Value) (d : Dict) :
    flatten (e :: d) = e.1 :: e.2 :: flatten d := rfl

theorem forall_flatten {P : Value → Prop} {d : Dict} :
    (∀ v ∈ d.flatten, P v) ↔ ∀ e ∈ d, P e.1 ∧ P e.2 := by
  induction d with
  | nil => simp
  | cons e rest ih =>
    rw [flatten_cons, List.forall_mem_cons, List.forall_mem_cons, List.forall_mem_cons, ih, and_assoc]

theorem pairs_flatten (d : Dict) : pairs d.flatten = d := by
  induction d with
  | nil => rfl
  | cons e rest ih => rw [flatten_cons, pairs, ih]

theorem length_flatten_mod_two (d : Dict) : d.flatten.length % 2 = 0 := by
  induction d with
  | nil => rfl
  | cons e rest ih =>
    rw [flatten_cons, List.length_cons, List.length_cons]
    omega

theorem forall_pairs {P : Value → Prop} {items : List Value} (h : ∀ v ∈ items, P v) :
    ∀ e ∈ pairs items, P e.1 ∧ P e.2 := by
  fun_induction pairs items with
  | case1 key value rest ih =>
    intro e he
    rcases List.mem_cons.mp he with rfl | he
    · exact ⟨h key (by simp), h value (by simp)⟩
    · exact ih (fun v hv => h v (by simp [hv])) e he
  | case2 => simp

end MatrixLisp.Dict
