import Mathlib.Tactic
import MatrixLisp.Proofs.Eval.Store

/-!
# The bindings of a frame

A frame is what remains of bindings that are made one after another: a name has the value of its
last binding, and occurs once among the names, which are in order. The parameters of a call are
bound in this way, or not at all.
-/
namespace MatrixLisp

namespace Frame

theorem ofList_append (bindings : List (String × Value)) (b : String × Value) :
    ofList (bindings ++ [b]) = (ofList bindings).bind b.1 b.2 := by
  rw [ofList, List.foldl_append]
  rfl

/-- A name has the value of its last binding. -/
theorem find?_ofList (bindings : List (String × Value)) (name : String) :
    (ofList bindings).find? name = bindings.reverse.lookup name := by
  induction bindings using List.reverseRecOn with
  | nil => rfl
  | append_singleton bindings b ih =>
    obtain ⟨n, v⟩ := b
    rw [ofList_append, List.reverse_append, List.reverse_singleton, List.singleton_append,
      List.lookup_cons]
    by_cases hn : name = n
    · simp [hn]
    · rw [find?_bind_of_ne _ _ hn, ih, beq_false_of_ne hn]

theorem find?_eq_none {frame : Frame} {name : String} :
    frame.find? name = none ↔ ∀ value, (name, value) ∉ frame := by
  rw [find?, List.lookup_eq_none_iff]
  constructor
  · intro h value hb
    exact bne_iff_ne.mp (h _ hb) rfl
  · rintro h ⟨n, v⟩ hb
    rw [bne_iff_ne]
    rintro rfl
    exact h v hb

theorem find?_ofList_eq_none {bindings : List (String × Value)} {name : String} :
    (ofList bindings).find? name = none ↔ ∀ value, (name, value) ∉ bindings := by
  rw [find?_ofList]
  exact find?_eq_none.trans (by simp)

theorem map_fst_bind (frame : Frame) (name : String) (value : Value) :
    (frame.bind name value).map Prod.fst =
      if name ∈ frame.map Prod.fst then frame.map Prod.fst else frame.map Prod.fst ++ [name] := by
  induction frame with
  | nil => rfl
  | cons b rest ih =>
    rw [bind]
    by_cases h : b.1 = name
    · simp [h]
    · rw [if_neg h, List.map_cons, ih, List.map_cons]
      by_cases hrest : name ∈ rest.map Prod.fst <;> simp [hrest, Ne.symm h]

/-- Binding a name again adds none. -/
theorem nodup_ofList (bindings : List (String × Value)) :
    ((ofList bindings).map Prod.fst).Nodup := by
  induction bindings using List.reverseRecOn with
  | nil => exact List.nodup_nil
  | append_singleton bindings b ih =>
    rw [ofList_append, map_fst_bind]
    split_ifs with h
    · exact ih
    · exact ih.append (List.nodup_singleton _) (by simpa using h)

theorem mem_names {bindings : List (String × Value)} {name : String} :
    name ∈ (ofList bindings).names ↔ ∃ value, (name, value) ∈ bindings := by
  have hbound : name ∈ (ofList bindings).names ↔ ¬(ofList bindings).find? name = none := by
    simp [names, find?_eq_none]
  rw [hbound, find?_ofList_eq_none]
  simp

theorem names_sorted (bindings : List (String × Value)) :
    (ofList bindings).names.Pairwise (· < ·) := by
  have hle : (ofList bindings).names.Pairwise (· ≤ ·) := List.pairwise_mergeSort' (· ≤ ·) _
  have hne : (ofList bindings).names.Nodup :=
    (List.mergeSort_perm _ _).nodup_iff.mpr (nodup_ofList bindings)
  exact hle.imp₂ (fun _ _ hle hne => Std.lt_of_le_of_ne hle hne) hne

theorem bindParams_eq_ok_iff {params args : List Value} (hlength : params.length = args.length)
    (start frame : Frame) : bindParams params args start = .ok frame ↔
      ∃ names, params.mapM Value.symbol? = some names ∧
        frame = (names.zip args).foldl (fun frame b => frame.bind b.1 b.2) start := by
  induction params generalizing args start with
  | nil => simp [bindParams, eq_comm]
  | cons param params ih =>
    cases args with
    | nil => cases hlength
    | cons arg args =>
      rw [bindParams, List.mapM_cons]
      cases param.symbol? with
      | none => simp
      | some name =>
        rw [ih (Nat.succ.inj hlength)]
        cases params.mapM Value.symbol? <;> simp

/-- Parameters are bound in order. They must be symbols, as many as the arguments. -/
theorem ofParams_eq_ok_iff {params args : List Value} {frame : Frame} :
    ofParams params args = .ok frame ↔ params.length = args.length ∧
      ∃ names, params.mapM Value.symbol? = some names ∧ frame = ofList (names.zip args) := by
  rw [ofParams]
  split_ifs with hlength
  · rw [bindParams_eq_ok_iff hlength]
    simp [hlength, ofList]
  · simp [hlength]

theorem mapM_symbol?_eq_none {params : List Value} :
    params.mapM Value.symbol? = none ↔ ∃ p ∈ params, p.symbol? = none := by
  induction params with
  | nil => simp
  | cons p params ih =>
    rw [List.mapM_cons, List.exists_mem_cons_iff, ← ih]
    cases p.symbol? <;> cases params.mapM Value.symbol? <;> simp

/-- A call has no frame if the arguments are more or fewer than the parameters, or a parameter is no
symbol. -/
theorem ofParams_fails_iff {params args : List Value} :
    (∃ f, ofParams params args = .error f) ↔
      params.length ≠ args.length ∨ ∃ p ∈ params, p.symbol? = none := by
  have hok : (∃ frame, ofParams params args = .ok frame) ↔
      params.length = args.length ∧ ∃ names, params.mapM Value.symbol? = some names := by
    simp only [ofParams_eq_ok_iff]
    exact ⟨fun ⟨_, hlength, names, hnames, _⟩ => ⟨hlength, names, hnames⟩,
      fun ⟨hlength, names, hnames⟩ => ⟨_, hlength, names, hnames, rfl⟩⟩
  rw [← mapM_symbol?_eq_none, ← not_iff_not, not_or, not_not, ← ne_eq,
    Option.ne_none_iff_exists', ← hok]
  cases ofParams params args <;> simp

end Frame

namespace Store

/-- A name that is bound in an outer frame is found from inside, unless an inner frame hides it. -/
theorem find?_bind_outer {s : Store} {scope outer : Scope} {inner rest : List FrameId}
    {name : String} (value : Value) (hchain : scope.chain = inner ++ outer.inner :: rest)
    (houter : outer.inner < s.frames.size)
    (hinner : ∀ id ∈ inner, (s.frame id).find? name = none) :
    (s.bind outer name value).find? scope name = some value := by
  have hbound : ((s.bind outer name value).frame outer.inner).find? name = some value := by
    rw [frame_bind_self s name value houter, Frame.find?_bind_self]
  rw [find?, hchain]
  clear hchain
  induction inner with
  | nil => simp [hbound]
  | cons id inner ih =>
    rw [List.cons_append, List.findSome?_cons]
    by_cases hid : id = outer.inner
    · rw [hid, hbound]
    · rw [frame_bind_of_ne s name value hid, hinner id (by simp)]
      exact ih fun i hi => hinner i (by simp [hi])

end Store

end MatrixLisp
