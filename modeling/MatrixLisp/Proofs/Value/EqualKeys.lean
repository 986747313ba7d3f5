import Mathlib.Tactic
import MatrixLisp.Proofs.Value.OrderedDictionary

/-!
# Equal keys

A key is looked for among the keys that have its text. So a dictionary takes equal keys for the same
key if they have the same text, and only then: under `1` nothing is found that was set under `1.0`,
although the two are equal. Plain keys, such as symbols, integers and lists of these, are equal only
to themselves.
-/
namespace MatrixLisp

open Value (equal_map_iff)

namespace Value

/-- Among some keys, equality is symmetric and transitive. -/
structure EquatesOn (K : Value → Prop) : Prop where
  symm : ∀ {a b}, K a → K b → a.equal b = true → b.equal a = true
  trans : ∀ {a b c}, K a → K b → K c → a.equal b = true → b.equal c = true → a.equal c = true

/-- Some keys have the same text if they are equal. -/
def SameText (K : Value → Prop) : Prop := ∀ a b, K a → K b → a.equal b = true → a.render = b.render

variable {K : Value → Prop} {k a b : Value}

theorem EquatesOn.isKey_self (hK : EquatesOn K) (ha : K a) (hb : K b) (hequal : a.equal b = true) :
    Dict.isKey a a = true := by
  simp [Dict.isKey, hK.trans ha hb ha hequal (hK.symm ha hb hequal)]

theorem EquatesOn.equal_congr (hK : EquatesOn K) (hk : K k) (ha : K a) (hb : K b)
    (hequal : a.equal b = true) : k.equal a = k.equal b := by
  rw [Bool.eq_iff_iff]
  exact ⟨fun h => hK.trans hk ha hb h hequal, fun h => hK.trans hk hb ha h (hK.symm ha hb hequal)⟩

theorem SameText.isKey_eq (htext : SameText K) (ha : K a) (hb : K b) :
    Dict.isKey a b = a.equal b := by
  rw [Dict.isKey]
  cases hequal : a.equal b with
  | false => rfl
  | true => simp [htext a b ha hb hequal]

end Value

namespace Dict

/-- Each entry of one dictionary has one of the other with an equal key and an equal value. -/
def Corresponds (d e : Dict) : Prop :=
  (∀ x ∈ d, ∃ y ∈ e, y.1.equal x.1 = true ∧ y.2.equal x.2 = true) ∧
    ∀ y ∈ e, ∃ x ∈ d, y.1.equal x.1 = true ∧ y.2.equal x.2 = true

/-- Entries that have different partners are no more than the partners, and if they are as many, none
of the partners is left. -/
theorem length_le_of_pairwise {R : Value × Value → Value × Value → Prop} {d e : Dict}
    (hd : d.Pairwise fun x x' => ∀ y ∈ e, R x y → ¬R x' y) (hpartner : ∀ x ∈ d, ∃ y ∈ e, R x y) :
    d.length ≤ e.length ∧ (e.length ≤ d.length → ∀ y ∈ e, ∃ x ∈ d, R x y) := by
  induction d generalizing e with
  | nil => simp +contextual
  | cons x d ih =>
    obtain ⟨hx, hd⟩ := List.pairwise_cons.mp hd
    obtain ⟨y, hy, hxy⟩ := hpartner x (by simp)
    obtain ⟨before, after, rfl⟩ := List.append_of_mem hy
    have hrest : ∀ z, z ∈ before ++ after → z ∈ before ++ y :: after := by
      intro z hz
      rcases List.mem_append.mp hz with hz | hz <;> simp [hz]
    -- The partner of the first entry is none of the others.
    have hother : ∀ x' ∈ d, ∃ z ∈ before ++ after, R x' z := by
      intro x' hx'
      obtain ⟨z, hz, hz'⟩ := hpartner x' (by simp [hx'])
      have hne : z ≠ y := by
        rintro rfl
        exact hx x' hx' z hy hxy hz'
      exact ⟨z, by simpa [hne] using hz, hz'⟩
    obtain ⟨hlength, hall⟩ := ih (hd.imp fun h z hz => h z (hrest z hz)) hother
    simp only [List.length_append, List.length_cons] at hlength hall ⊢
    refine ⟨by omega, fun hle z hz => ?_⟩
    by_cases hzy : z = y
    · exact ⟨x, by simp, hzy ▸ hxy⟩
    · obtain ⟨x', hx', hz'⟩ := hall (by omega) z (by simpa [hzy] using hz)
      exact ⟨x', by simp [hx'], hz'⟩

theorem render_eq_of_find?_singleton {k key v value : Value}
    (h : find? [(k, v)] key = some value) : k.render = key.render := by
  obtain ⟨e, he, hkey, -⟩ := exists_mem_of_find? h
  rw [List.mem_singleton.mp he, isKey, Bool.and_eq_true, beq_iff_eq] at hkey
  exact hkey.2

section

variable {K : Value → Prop} (hK : Value.EquatesOn K) (htext : Value.SameText K) {d e : Dict}
  (hdkeys : ∀ x ∈ d, K x.1) (hekeys : ∀ y ∈ e, K y.1)

include htext hdkeys in
/-- Keys that have the same text if they are equal come once, up to equality. -/
theorem Distinct.pairwise_not_equal (hd : d.Distinct) :
    d.Pairwise fun x y => x.1.equal y.1 = false := by
  refine hd.imp_of_mem fun {x y} hx hy hxy => ?_
  rw [← htext.isKey_eq (hdkeys x hx) (hdkeys y hy), hxy]

include hK htext hdkeys

/-- Equal keys find the same value if they have the same text. -/
theorem find?_eq_of_equal {a b : Value} (ha : K a) (hb : K b) (hequal : a.equal b = true) :
    d.find? a = d.find? b := by
  apply find?_congr
  intro x hx
  have hx := hdkeys x hx
  rw [htext.isKey_eq hx ha, htext.isKey_eq hx hb, hK.equal_congr hx ha hb hequal]

include hekeys

/-- Entries with different keys have different partners under equal keys. -/
theorem Distinct.length_le_of_partners (hd : d.Distinct)
    {R : Value × Value → Value × Value → Prop}
    (hequal : ∀ x ∈ d, ∀ y ∈ e, R x y → x.1.equal y.1 = true)
    (hpartner : ∀ x ∈ d, ∃ y ∈ e, R x y) :
    d.length ≤ e.length ∧ (e.length ≤ d.length → ∀ y ∈ e, ∃ x ∈ d, R x y) := by
  refine length_le_of_pairwise ((hd.pairwise_not_equal htext hdkeys).imp_of_mem ?_) hpartner
  intro x x' hx hx' hne y hy hxy hxy'
  have hsame : x.1.equal x'.1 = true :=
    hK.trans (hdkeys x hx) (hekeys y hy) (hdkeys x' hx') (hequal x hx y hy hxy)
      (hK.symm (hdkeys x' hx') (hekeys y hy) (hequal x' hx' y hy hxy'))
  rw [hne] at hsame
  cases hsame

/-- Maps are equal if each entry has one with an equal key and an equal value, on both sides. -/
theorem equal_map_iff_corresponds (hd : d.Distinct) (he : e.Distinct) :
    (Value.map d).equal (.map e) = true ↔ d.Corresponds e := by
  have hleft := hd.length_le_of_partners hK htext hdkeys hekeys
    (R := fun x y => y.1.equal x.1 = true ∧ y.2.equal x.2 = true)
    fun x hx y hy h => hK.symm (hekeys y hy) (hdkeys x hx) h.1
  have hright := he.length_le_of_partners hK htext hekeys hdkeys
    (R := fun y x => y.1.equal x.1 = true ∧ y.2.equal x.2 = true) fun _ _ _ _ h => h.1
  rw [Value.equal_map_iff]
  constructor
  · rintro ⟨hsize, hfound⟩
    have hpartner : ∀ x ∈ d, ∃ y ∈ e, y.1.equal x.1 = true ∧ y.2.equal x.2 = true := by
      intro x hx
      obtain ⟨v, hv, hequal⟩ := hfound x hx
      obtain ⟨y, hy, hkey, rfl⟩ := exists_mem_of_find? hv
      exact ⟨y, hy, by rwa [← htext.isKey_eq (hekeys y hy) (hdkeys x hx)], hequal⟩
    exact ⟨hpartner, (hleft hpartner).2 hsize.ge⟩
  · rintro ⟨hd', he'⟩
    refine ⟨(hleft hd').1.antisymm (hright he').1, fun x hx => ?_⟩
    obtain ⟨y, hy, hkey, hvalue⟩ := hd' x hx
    have hself := hK.isKey_self (hekeys y hy) (hdkeys x hx) hkey
    refine ⟨y.2, ?_, hvalue⟩
    rw [← find?_eq_of_equal hK htext hekeys (hekeys y hy) (hdkeys x hx) hkey]
    exact he.find?_of_mem hy hself

end

end Dict

/-- Symbols, integers, truth values, `nil`, builtins, and lists of these. -/
inductive Value.IsPlain : Value → Prop
  | symbol (name : String) : IsPlain (.symbol name)
  | int (n : Int64) : IsPlain (.number (.int n))
  | bool (b : Bool) : IsPlain (.bool b)
  | nil : IsPlain .nil
  | builtin (b : Builtin) : IsPlain (.builtin b)
  | list {items : List Value} : (∀ v ∈ items, IsPlain v) → IsPlain (.list items)

/-- Sequences are the same if their items are equal only when they are the same. -/
theorem Value.equalItems_iff_eq {xs ys : List Value}
    (h : ∀ x ∈ xs, ∀ y ∈ ys, x.equal y = true ↔ x = y) : equalItems xs ys = true ↔ xs = ys := by
  induction xs generalizing ys with
  | nil => cases ys <;> simp [equalItems]
  | cons x xs ih =>
    cases ys with
    | nil => simp [equalItems]
    | cons y ys =>
      have hrest : ∀ x ∈ xs, ∀ y ∈ ys, x.equal y = true ↔ x = y :=
        fun x hx y hy => h x (by simp [hx]) y (by simp [hy])
      rw [equalItems, Bool.and_eq_true, h x (by simp) y (by simp), ih hrest, List.cons.injEq]

namespace Value.IsPlain

/-- A plain key is equal to itself only. -/
theorem equal_iff {a b : Value} (ha : a.IsPlain) (hb : b.IsPlain) : a.equal b = true ↔ a = b := by
  induction ha generalizing b with
  | symbol name => cases hb <;> simp [equal]
  | int n => cases hb <;> simp [equal, Number.equal]
  | bool b => cases hb <;> simp [equal]
  | nil => cases hb <;> simp [equal]
  | builtin b => cases hb <;> simp [equal]
  | @list xs hxs ih =>
    cases hb with
    | @list ys hys =>
      rw [equal, equalItems_iff_eq fun x hx y hy => ih x hx (hys y hy), Value.list.injEq]
    | _ => simp [equal]

theorem equatesOn : EquatesOn IsPlain where
  symm ha hb h := ((ha.equal_iff hb).mp h) ▸ h
  trans ha hb _ hab hbc := ((ha.equal_iff hb).mp hab) ▸ hbc

theorem sameText : SameText IsPlain := fun _ _ ha hb h => congrArg render ((ha.equal_iff hb).mp h)

end Value.IsPlain

namespace IndexedDict

/-- Equal keys can stand for each other if they have the same text, and not otherwise: if they have
not, some dictionary finds different values under them, some has an entry for each of them, and some
differs from another one that has equal keys with equal values. -/
theorem equal_keys_tfae {K : Value → Prop} (hK : Value.EquatesOn K) :
    List.TFAE [Value.SameText K,
      ∀ entries, (∀ e ∈ entries, K e.1) → ∀ a b, K a → K b → a.equal b = true →
        (ofList entries).find? a = (ofList entries).find? b,
      ∀ entries, (∀ e ∈ entries, K e.1) →
        (ofList entries).entries.Pairwise fun x y => x.1.equal y.1 = false,
      ∀ entries others, (∀ e ∈ entries, K e.1) → (∀ e ∈ others, K e.1) →
        ((Value.map (ofList entries).entries).equal (.map (ofList others).entries) = true ↔
          (ofList entries).entries.Corresponds (ofList others).entries)] := by
  simp only [entries_ofList, find?_eq]
  have hsingle : ∀ k, K k → ∀ e ∈ [(k, Value.nil)], K e.1 := by simp
  tfae_have 1 → 2 := fun htext entries hkeys a b ha hb hequal =>
    Dict.find?_eq_of_equal hK htext (Dict.forall_keys_ofList hkeys) ha hb hequal
  tfae_have 1 → 3 := fun htext entries hkeys =>
    (Dict.distinct_ofList entries).pairwise_not_equal htext (Dict.forall_keys_ofList hkeys)
  tfae_have 1 → 4 := fun htext entries others hkeys hothers =>
    Dict.equal_map_iff_corresponds hK htext (Dict.forall_keys_ofList hkeys)
      (Dict.forall_keys_ofList hothers) (Dict.distinct_ofList entries) (Dict.distinct_ofList others)
  tfae_have 2 → 1 := by
    intro hfind a b ha hb hequal
    have hself : Dict.find? [(a, .nil)] a = some .nil := by
      rw [Dict.find?_cons, if_pos (hK.isKey_self ha hb hequal)]
    have hfound : Dict.find? [(a, .nil)] b = some .nil :=
      (hfind _ (hsingle a ha) a b ha hb hequal).symm.trans hself
    exact Dict.render_eq_of_find?_singleton hfound
  tfae_have 3 → 1 := by
    intro hpairwise a b ha hb hequal
    by_contra hne
    have hdistinct : Dict.Distinct [(a, .nil), (b, .nil)] := by simp [Dict.Distinct, Dict.isKey, hne]
    have hentries := hpairwise [(a, .nil), (b, .nil)] (by simp [ha, hb])
    rw [Dict.ofList_of_distinct hdistinct] at hentries
    simp [hequal] at hentries
  tfae_have 4 → 1 := by
    intro hmaps a b ha hb hequal
    have hcorresponds : Dict.Corresponds [(a, .nil)] [(b, .nil)] := by
      simp [Dict.Corresponds, hK.symm ha hb hequal, Value.equal]
    have hmap := (hmaps _ _ (hsingle a ha) (hsingle b hb)).mpr hcorresponds
    obtain ⟨v, hfound, -⟩ := (equal_map_iff.mp hmap).2 _ (List.mem_singleton_self (a, Value.nil))
    exact (Dict.render_eq_of_find?_singleton hfound).symm
  tfae_finish

/-- Plain keys can stand for each other if they are equal. -/
theorem equal_keys_tfae_plain :
    Value.EquatesOn Value.IsPlain ∧
      (∀ entries, (∀ e ∈ entries, Value.IsPlain e.1) → ∀ a b, a.IsPlain → b.IsPlain →
        a.equal b = true → (ofList entries).find? a = (ofList entries).find? b) ∧
      (∀ entries, (∀ e ∈ entries, Value.IsPlain e.1) →
        (ofList entries).entries.Pairwise fun x y => x.1.equal y.1 = false) ∧
      ∀ entries others, (∀ e ∈ entries, Value.IsPlain e.1) → (∀ e ∈ others, Value.IsPlain e.1) →
        ((Value.map (ofList entries).entries).equal (.map (ofList others).entries) = true ↔
          (ofList entries).entries.Corresponds (ofList others).entries) := by
  have htfae := equal_keys_tfae Value.IsPlain.equatesOn
  have htext := Value.IsPlain.sameText
  exact ⟨Value.IsPlain.equatesOn, (htfae.out 0 1).mp htext, (htfae.out 0 2).mp htext,
    (htfae.out 0 3).mp htext⟩

/-- The keys `1` and `1.0` are equal and have different texts. -/
theorem equal_keys_apart :
    (Value.int 1).equal (.float 1.0) = true ∧
      (ofList [(.int 1, .int 7)]).find? (.int 1) = some (.int 7) ∧
      (ofList [(.int 1, .int 7)]).find? (.float 1.0) = none ∧
      (ofList [(.int 1, .int 7), (.float 1.0, .int 8)]).entries =
        [(.int 1, .int 7), (.float 1.0, .int 8)] ∧
      (Value.map (ofList [(.int 1, .int 7)]).entries).equal
        (.map (ofList [(.float 1.0, .int 7)]).entries) = false ∧
      Dict.Corresponds (ofList [(.int 1, .int 7)]).entries (ofList [(.float 1.0, .int 7)]).entries := by
  have hequal : (Value.int 1).equal (.float 1.0) = true := by
    rw [Value.equal]
    decide +kernel
  have hback : (Value.float 1.0).equal (.int 1) = true := by
    rw [Value.equal]
    decide +kernel
  have htext : (Value.float 1.0).render = "1.0" := by
    show FloatText.literal 1.0 = "1.0"
    decide +kernel
  have hone : Dict.isKey (.int 1) (.float 1.0) = false := by
    rw [Dict.isKey, htext, hequal]
    rfl
  have hfloat : Dict.isKey (.float 1.0) (.int 1) = false := by
    rw [Dict.isKey, htext, hback]
    rfl
  have hself : Dict.isKey (.int 1) (.int 1) = true := by simp [Dict.isKey, Value.equal, Number.equal]
  have hseven : (Value.int 7).equal (.int 7) = true := by simp [Value.equal, Number.equal]
  have hsingle : ∀ k v : Value, Dict.ofList [(k, v)] = [(k, v)] := fun _ _ => rfl
  have hdistinct : Dict.Distinct [(.int 1, .int 7), (.float 1.0, .int 8)] := by
    simp [Dict.Distinct, hone]
  have hmissing : Dict.find? [(.int 1, .int 7)] (.float 1.0) = none := by simp [Dict.find?, hone]
  have hmap : (Value.map [(.int 1, .int 7)]).equal (.map [(.float 1.0, .int 7)]) = false := by
    rw [Bool.eq_false_iff, Ne, equal_map_iff]
    simp [Dict.find?, hfloat]
  simp only [find?_eq, entries_ofList, hsingle]
  refine ⟨hequal, ?_, hmissing, Dict.ofList_of_distinct hdistinct, hmap, ?_⟩
  · rw [Dict.find?_cons, if_pos hself]
  · simp [Dict.Corresponds, hback, hseven]

end IndexedDict

end MatrixLisp
