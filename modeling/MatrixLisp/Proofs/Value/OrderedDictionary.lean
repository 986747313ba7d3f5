import Mathlib.Data.Finset.Card
import Mathlib.Tactic
import MatrixLisp.Proofs.Reader.Keys
import MatrixLisp.Value.IndexedDict

/-!
# Dictionaries in insertion order

The index of a dictionary finds the entry that a search through all entries finds, so that setting
and looking up values is the same with and without it. If all keys are forms, a key is known by its
text. Setting values one after another then leaves one entry for each text, in the order in which the
texts first came, with the first key and the last value that came under it.
-/
namespace MatrixLisp

open Reader (IsForm)

namespace Dict

/-- The value is set in the first entry that the key stands for, or comes last. -/
theorem insert_eq_findIdx? (d : Dict) (key value : Value) :
    d.insert key value =
      match d.findIdx? (isKey ·.1 key) with
      | some i => d.modify i fun e => (e.1, value)
      | none => d ++ [(key, value)] := by
  induction d with
  | nil => rfl
  | cons first rest ih =>
    rw [insert, List.findIdx?_cons, ih]
    split_ifs with h
    · rfl
    · cases List.findIdx? (isKey ·.1 key) rest <;> rfl

theorem find?_eq_findIdx? (d : Dict) (key : Value) :
    d.find? key = (d.findIdx? (isKey ·.1 key)).bind fun i => d[i]?.map Prod.snd := by
  rw [find?, List.find?_eq_bind_findIdx?_getElem?, Option.map_bind]
  rfl

end Dict

namespace IndexedDict

variable (d : IndexedDict) (key value : Value)

/-- With the index, a key is found where it is found without. -/
theorem place?_eq_findIdx? : d.place? key = d.entries.findIdx? (Dict.isKey ·.1 key) := by
  have hkey : ∀ i (h : i < d.entries.length),
      (d.entries.hasText key.render i = true ∧ (d.entries[i]?.any (·.1.equal key)) = true) ↔
        Dict.isKey d.entries[i].1 key = true := by
    intro i h
    simp [Dict.hasText, Dict.isKey, h, and_comm]
  rw [place?, bucket_eq, Dict.places, List.find?_filter]
  ext i
  rw [List.find?_range_eq_some, List.findIdx?_eq_some_iff_getElem]
  simp only [decide_eq_true_eq, Bool.not_eq_true', decide_eq_false_iff_not, List.mem_range]
  constructor
  · rintro ⟨hi, hlt, hbefore⟩
    exact ⟨hlt, (hkey i hlt).mp hi, fun j hj hfound => hbefore j hj ((hkey j (by omega)).mpr hfound)⟩
  · rintro ⟨hlt, hi, hbefore⟩
    exact ⟨(hkey i hlt).mpr hi, hlt, fun j hj hfound => hbefore j hj ((hkey j (by omega)).mp hfound)⟩

theorem find?_eq : d.find? key = d.entries.find? key := by
  rw [find?, place?_eq_findIdx?, Dict.find?_eq_findIdx?]

theorem entries_insert : (d.insert key value).entries = d.entries.insert key value := by
  rw [insert, place?_eq_findIdx?, Dict.insert_eq_findIdx?]
  cases d.entries.findIdx? (Dict.isKey ·.1 key) <;> rfl

theorem entries_ofList (entries : List (Value × Value)) :
    (ofList entries).entries = Dict.ofList entries := by
  suffices h : ∀ d : IndexedDict,
      (entries.foldl (fun d (entry : Value × Value) => d.insert entry.1 entry.2) d).entries =
        entries.foldl (fun d (entry : Value × Value) => d.insert entry.1 entry.2) d.entries from
    h empty
  induction entries with
  | nil => exact fun d => rfl
  | cons first rest ih =>
    intro d
    rw [List.foldl_cons, List.foldl_cons, ← entries_insert]
    exact ih _

end IndexedDict

namespace Dict

def texts (d : Dict) : List String := d.map (·.1.render)

/-- The first key that came with a text. -/
def firstKey? (entries : List (Value × Value)) (text : String) : Option Value :=
  (List.find? (·.1.render == text) entries).map Prod.fst

/-- The last value that came under a text. -/
def lastValue? (entries : List (Value × Value)) (text : String) : Option Value :=
  (List.find? (·.1.render == text) entries.reverse).map Prod.snd

theorem mem_texts {entries : List (Value × Value)} {text : String} :
    text ∈ texts entries ↔ ∃ e ∈ entries, e.1.render = text := List.mem_map

theorem texts_append (entries others : List (Value × Value)) :
    texts (entries ++ others) = texts entries ++ texts others := List.map_append

theorem firstKey?_append (entries : List (Value × Value)) (e : Value × Value) (text : String) :
    firstKey? (entries ++ [e]) text =
      (firstKey? entries text).or (if e.1.render = text then some e.1 else none) := by
  rw [firstKey?, List.find?_append, Option.map_or, List.find?_cons, List.find?_nil]
  by_cases h : e.1.render = text
  · simp [h, firstKey?]
  · simp [beq_eq_false_iff_ne.mpr h, h, firstKey?]

theorem lastValue?_append (entries : List (Value × Value)) (e : Value × Value) (text : String) :
    lastValue? (entries ++ [e]) text =
      if e.1.render = text then some e.2 else lastValue? entries text := by
  rw [lastValue?, List.reverse_append, List.reverse_singleton, List.singleton_append,
    List.find?_cons]
  by_cases h : e.1.render = text
  · simp [h]
  · simp [beq_eq_false_iff_ne.mpr h, h, lastValue?]

theorem firstKey?_eq_none_iff {entries : List (Value × Value)} {text : String} :
    firstKey? entries text = none ↔ text ∉ texts entries := by
  simp [firstKey?, mem_texts]

theorem lastValue?_eq_none_iff {entries : List (Value × Value)} {text : String} :
    lastValue? entries text = none ↔ text ∉ texts entries := by
  simp [lastValue?, mem_texts]

theorem ofList_append (entries : List (Value × Value)) (e : Value × Value) :
    ofList (entries ++ [e]) = (ofList entries).insert e.1 e.2 := by
  rw [ofList, List.foldl_append]
  rfl

/-- With forms as keys, no text comes twice. -/
theorem Distinct.nodup_texts {d : Dict} (h : d.Distinct) (hforms : ∀ e ∈ d, IsForm e.1) :
    (texts d).Nodup := by
  refine List.pairwise_map.mpr (h.imp_of_mem fun {a b} ha hb hab hsame => ?_)
  rw [← (hforms a ha).isKey_iff (hforms b hb)] at hsame
  simp [hab] at hsame

section

variable {d : Dict} {key value : Value}

/-- One more entry adds its key if no key has the text. -/
theorem map_fst_insert (hforms : ∀ e ∈ d, IsForm e.1) (hkey : IsForm key) :
    (d.insert key value).map Prod.fst =
      if key.render ∈ texts d then d.map Prod.fst else d.map Prod.fst ++ [key] := by
  induction d with
  | nil => rfl
  | cons first rest ih =>
    rw [insert]
    have hfirst := (hforms first (by simp)).isKey_iff hkey
    by_cases h : first.1.render = key.render
    · rw [if_pos (hfirst.mpr h), if_pos (mem_texts.mpr ⟨first, by simp, h⟩)]
      rfl
    · rw [if_neg (mt hfirst.mp h), List.map_cons, ih fun e he => hforms e (by simp [he])]
      have hmem : key.render ∈ texts (first :: rest) ↔ key.render ∈ texts rest := by
        simp [texts, Ne.symm h]
      by_cases hrest : key.render ∈ texts rest <;> simp [hmem, hrest]

theorem texts_insert (hforms : ∀ e ∈ d, IsForm e.1) (hkey : IsForm key) :
    texts (d.insert key value) =
      if key.render ∈ texts d then texts d else texts d ++ [key.render] := by
  have hkeys : ∀ d : Dict, texts d = (d.map Prod.fst).map Value.render := by simp [texts]
  rw [hkeys, map_fst_insert hforms hkey, hkeys d, apply_ite (List.map Value.render)]
  simp

/-- After a value is set, it is found under all keys with the text, and what is found under others
is as before. -/
theorem find?_insert (hforms : ∀ e ∈ d, IsForm e.1) (hkey : IsForm key) {k : Value}
    (hk : IsForm k) :
    (d.insert key value).find? k = if key.render = k.render then some value else d.find? k := by
  induction d with
  | nil =>
    rw [insert, find?_cons]
    simp only [hkey.isKey_iff hk]
  | cons first rest ih =>
    have hfirst := (hforms first (by simp)).isKey_iff hkey
    have hfound := (hforms first (by simp)).isKey_iff hk
    have hrest := ih fun e he => hforms e (by simp [he])
    rw [insert]
    by_cases h : first.1.render = key.render
    · rw [if_pos (hfirst.mpr h), find?_cons, find?_cons]
      by_cases hsame : key.render = k.render <;> simp [hfound, h, hsame]
    · rw [if_neg (mt hfirst.mp h), find?_cons, find?_cons, hrest]
      by_cases hsame : key.render = k.render
      · have hother : first.1.render ≠ k.render := hsame ▸ h
        simp [hfound, hother, hsame]
      · simp [hsame]

end

section

variable {entries : List (Value × Value)} (hforms : ∀ e ∈ entries, IsForm e.1)

include hforms

theorem forall_isForm_ofList : ∀ e ∈ ofList entries, IsForm e.1 := forall_keys_ofList hforms

/-- Each text has one entry, in the order in which the texts first came. -/
theorem texts_ofList : texts (ofList entries) = (texts entries).eraseDups := by
  induction entries using List.reverseRecOn with
  | nil => rfl
  | append_singleton entries e ih =>
    have hfront : ∀ e ∈ entries, IsForm e.1 := fun e he => hforms e (by simp [he])
    have hkey : IsForm e.1 := hforms e (by simp)
    rw [ofList_append, texts_insert (forall_isForm_ofList hfront) hkey, ih hfront, texts_append,
      List.eraseDups_append]
    have hlast : texts [e] = [e.1.render] := rfl
    by_cases h : e.1.render ∈ texts entries <;> simp [hlast, List.removeAll, List.eraseDups_cons, h]

/-- The key of an entry is the first that came with its text. -/
theorem firstKey?_of_mem_ofList {k : Value} (hk : k ∈ (ofList entries).map Prod.fst) :
    firstKey? entries k.render = some k := by
  induction entries using List.reverseRecOn with
  | nil => cases hk
  | append_singleton entries e ih =>
    have hfront : ∀ e ∈ entries, IsForm e.1 := fun e he => hforms e (by simp [he])
    have hkey : IsForm e.1 := hforms e (by simp)
    rw [ofList_append, map_fst_insert (forall_isForm_ofList hfront) hkey] at hk
    simp only [texts_ofList hfront, List.mem_eraseDups] at hk
    rw [firstKey?_append]
    split_ifs at hk with h
    · rw [ih hfront hk, Option.some_or]
    · rcases List.mem_append.mp hk with hk | hk
      · rw [ih hfront hk, Option.some_or]
      · rw [List.mem_singleton.mp hk, firstKey?_eq_none_iff.mpr h, Option.none_or, if_pos rfl]

/-- Under a key stands the last value that came with its text. -/
theorem find?_ofList {k : Value} (hk : IsForm k) :
    (ofList entries).find? k = lastValue? entries k.render := by
  induction entries using List.reverseRecOn with
  | nil => rfl
  | append_singleton entries e ih =>
    have hfront : ∀ e ∈ entries, IsForm e.1 := fun e he => hforms e (by simp [he])
    have hkey : IsForm e.1 := hforms e (by simp)
    rw [ofList_append, find?_insert (forall_isForm_ofList hfront) hkey hk, lastValue?_append,
      ih hfront]

theorem lastValue?_of_mem_ofList {e : Value × Value} (he : e ∈ ofList entries) :
    lastValue? entries e.1.render = some e.2 := by
  have hkey := forall_isForm_ofList hforms e he
  rw [← find?_ofList hforms hkey]
  exact (distinct_ofList entries).find?_of_mem he hkey.isKey_self

end

end Dict

namespace IndexedDict

open Dict (texts firstKey? lastValue?)

/-- Setting values under forms one after another gives a dictionary in insertion order: it has one
entry for each text of a key, in the order in which the texts first came, with the first key and the
last value that came with the text. Under a form, that value is found, and nothing if no key had its
text. A map that is read has the same entries. -/
theorem ofList_insertionOrdered {entries : List (Value × Value)}
    (hforms : ∀ e ∈ entries, IsForm e.1) :
    texts (ofList entries).entries = (texts entries).eraseDups ∧
    (texts (ofList entries).entries).Nodup ∧
    (∀ e ∈ (ofList entries).entries,
      firstKey? entries e.1.render = some e.1 ∧ lastValue? entries e.1.render = some e.2) ∧
    (ofList entries).size = (texts entries).toFinset.card ∧
    (∀ k, IsForm k → (ofList entries).find? k = lastValue? entries k.render ∧
      ((ofList entries).find? k = none ↔ k.render ∉ texts entries)) ∧
    (ofList entries).entries = Dict.ofList entries := by
  have htexts := Dict.texts_ofList hforms
  have hnodup := (Dict.distinct_ofList entries).nodup_texts (Dict.forall_isForm_ofList hforms)
  have hfound : ∀ k, IsForm k → (ofList entries).find? k = lastValue? entries k.render := by
    intro k hk
    rw [find?_eq, entries_ofList, Dict.find?_ofList hforms hk]
  have hsize : (ofList entries).size = (texts entries).toFinset.card := by
    have hset : (texts entries).toFinset = (texts (Dict.ofList entries)).toFinset := by
      ext text
      rw [List.mem_toFinset, List.mem_toFinset, htexts, List.mem_eraseDups]
    rw [size, entries_ofList, hset, List.toFinset_card_of_nodup hnodup, texts, List.length_map]
  rw [entries_ofList]
  refine ⟨htexts, hnodup, fun e he => ⟨?_, ?_⟩, hsize, fun k hk => ⟨hfound k hk, ?_⟩, rfl⟩
  · exact Dict.firstKey?_of_mem_ofList hforms (List.mem_map_of_mem he)
  · exact Dict.lastValue?_of_mem_ofList hforms he
  · rw [hfound k hk, Dict.lastValue?_eq_none_iff]

/-- The keys `1` and `1.0` are equal values but not the same key, and the last entry takes the place of
the first. -/
theorem ofList_insertionOrdered_overwritten :
    ∃ entries : List (Value × Value), (∀ e ∈ entries, IsForm e.1) ∧
      texts entries = ["1", "1.0", "\x7bk 1\x7d", "1"] ∧
      texts (ofList entries).entries = ["1", "1.0", "\x7bk 1\x7d"] ∧
      (Value.int 1).equal (.float 1.0) = true ∧
      (ofList entries).find? (.int 1) = some (.symbol "a") := by
  have htext : FloatText.literal 1.0 = "1.0" := by decide +kernel
  have hback : FloatText.ReadsBack 1.0 := by
    refine ⟨⟨[], ['1'], ['0'], Or.inl rfl, rfl, rfl, by rw [htext]; rfl⟩, ?_⟩
    rw [htext]
    decide +kernel
  have hfloat := Literal.classify_float hback (by decide +kernel)
  have hone : IsForm (.float 1.0) :=
    Reader.isForm_iff.mpr ⟨_, .atom hfloat.1, fun kind hkind => by
      rw [List.mem_singleton.mp hkind]
      exact hfloat.2⟩
  have hreads : Reader.Reads "1 \x7bk 1\x7d" [.int 1, .map [(.symbol "k", .int 1)]] := by cbv
  let entries : List (Value × Value) := [(.int 1, .nil), (.float 1.0, .nil),
    (.map [(.symbol "k", .int 1)], .nil), (.int 1, .symbol "a")]
  have hforms : ∀ e ∈ entries, IsForm e.1 := by
    simp only [entries, List.forall_mem_cons]
    exact ⟨⟨_, _, hreads, by simp⟩, hone, ⟨_, _, hreads, by simp⟩, ⟨_, _, hreads, by simp⟩, by simp⟩
  have hkeys : texts entries = ["1", "1.0", "\x7bk 1\x7d", "1"] := by
    have hrender : (Value.float 1.0).render = "1.0" := htext
    simp only [entries, texts, List.map_cons, hrender]
    rfl
  obtain ⟨htexts, -, -, -, hfound, -⟩ := ofList_insertionOrdered hforms
  refine ⟨entries, hforms, hkeys, ?_, ?_, ?_⟩
  · rw [htexts, hkeys]
    cbv
  · rw [Value.equal]
    decide +kernel
  · rw [(hfound (.int 1) ⟨_, _, hreads, by simp⟩).1]
    rfl

end IndexedDict

end MatrixLisp
