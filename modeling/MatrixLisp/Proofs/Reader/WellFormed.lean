import Mathlib.Tactic
import MatrixLisp.Proofs.Reader.Continuation
import MatrixLisp.Proofs.Reader.Numeral
import MatrixLisp.Proofs.Value.Operations

/-!
# What is read is well-formed

Fractions are read in lowest terms and maps without repeated keys, so that every form is well-formed.
A text that is not read is refused with a fault of reading.
-/
namespace MatrixLisp

/-- A fault of reading is not that of a parameter. -/
def ReadError.Ordinary (e : ReadError) : Prop := (Halt.fault e.fault).Ordinary

namespace Reader

/-- What a spelling denotes is well-formed. -/
theorem Denotes.wellFormed {spelling : List TokenKind} {v : Value} (h : Denotes spelling v) :
    v.WellFormed := by
  induction h with
  | atom hs =>
    obtain ⟨q, rfl, hq⟩ | ⟨x, rfl, -⟩ | ⟨n, rfl⟩ | rfl := Literal.classify_cases hs
    · exact .number hq
    · exact .float x
    · exact .int n
    · exact .symbol _
  | string s => exact .symbol s
  | caret => exact .symbol _
  | semicolon => exact .symbol _
  | list _ ih => exact .list (Parts.forall_values ih)
  | vector _ ih => exact .vector (Parts.forall_values ih)
  | map _ _ ih =>
    have hentries := Dict.forall_ofList (Dict.forall_pairs (Parts.forall_values ih))
    exact .map (Dict.distinct_ofList _) (fun e he => (hentries e he).1) fun e he =>
      (hentries e he).2
  | mark m _ ih =>
    refine .list fun v hv => ?_
    rcases List.mem_cons.mp hv with rfl | hv
    · exact .symbol _
    · rw [List.mem_singleton.mp hv]
      exact ih

theorem classify_gives (s : String) : Gives (fun _ => True) (Literal.classify s) := by
  unfold Literal.classify
  dsimp only
  split
  · split
    · exact (Rational.ofFraction_gives ..).map fun _ _ => trivial
    · exact nofun
  · split_ifs
    · split
      · split_ifs
        · trivial
        · exact nofun
      · exact nofun
    · split
      · trivial
      · exact nofun
    · trivial

theorem Refused.ordinary {stack : List Pending} {t : Token} {e : ReadError}
    (h : Refused stack t e) : e.Ordinary := by
  cases h with
  | @atom s f _ hf =>
    have hclassify := classify_gives s
    rw [hf] at hclassify
    exact hclassify
  | _ => exact nofun

theorem continueForm_outcome (start : Span) (top : Pending) (below : List Pending)
    (tokens : List Token) :
    Outcome (fun _ => True) ReadError.Ordinary (continueForm start top below tokens).1 := by
  induction tokens generalizing top below with
  | nil => cases top <;> exact nofun
  | cons t rest ih =>
    rw [continueForm]
    split
    · rename_i e he
      exact (refused_of_advance he).ordinary
    · trivial
    · exact ih _ _

theorem readForm_outcome (t : Token) (rest : List Token) :
    Outcome (fun _ => True) ReadError.Ordinary (readForm t rest).1 := by
  unfold readForm
  split
  · rename_i e he
    exact (refused_of_advance he).ordinary
  · trivial
  · exact continueForm_outcome ..

/-- All forms that are read are well-formed. -/
theorem readForms_outcome (tokens : List Token) :
    Outcome (fun forms => ∀ form ∈ forms, form.1.WellFormed) ReadError.Ordinary
      (readForms tokens) := by
  fun_induction readForms tokens with
  | case1 => simp
  | case2 t rest result form hform ih =>
    obtain ⟨used, -, hdenotes⟩ := readForm_sound (Prod.ext hform rfl)
    apply ih.map
    intro forms hforms other hother
    rcases List.mem_cons.mp hother with rfl | hother
    · exact hdenotes.wellFormed
    · exact hforms other hother
  | case3 t rest result e herror =>
    have hresult := readForm_outcome t rest
    rw [herror] at hresult
    exact hresult

end Reader

end MatrixLisp
