import Mathlib.Tactic
import MatrixLisp.Proofs.Repetition
import MatrixLisp.Proofs.Value.Symmetry

/-!
# Values that programs meet

Programs are made of forms, and the keys of a map are taken from its form as they are. So all maps
that a program meets have forms as keys: in frames, in results, and in what is given to builtins.
Equality of such values does not depend on the side.
-/
namespace MatrixLisp

open Reader (IsForm)

namespace Coupling

open Run Eval Value

/-- A machine on which all maps have forms as keys, with itself. -/
def keyed : Coupling where
  names := .id
  Related m m' := m' = m ∧ m.store.All FormKeyed
  IsForm _ := Reader.IsForm
  IsValue _ := FormKeyed
  IsScope _ _ := True
  lenient := False

theorem lawful_keyed : keyed.Lawful where
  form_mono _ h := h
  value_mono _ h := h
  scope_mono _ _ := trivial
  form_items h hitems := h.items hitems
  form_entries h := h.entries
  value_of_form h := h.formKeyed
  value_of_atom h := .atom h
  value_list h := .list h
  value_vector h := .vector h
  value_map h := .map (fun e he => (h e he).1) fun e he => (h e he).2
  value_closure := by
    intro m id params body scope h
    cases h with
    | closure hparams hbody => exact ⟨hparams, hbody, trivial⟩
    | atom h => cases h
  find? := by
    rintro m m' scope name ⟨rfl, hm⟩ - -
    refine ⟨?_, fun v hv => hm.find? hv⟩
    have hnames : Value.rename .id = id := funext Value.rename_id
    simp [keyed, hnames]
  related_bind := by
    rintro m m' scope name value ⟨rfl, hm⟩ - - hvalue
    refine ⟨?_, hm.bind scope name hvalue⟩
    simp [keyed]
  related_push := by
    rintro m m' scope frame ⟨rfl, hm⟩ - hframe
    refine ⟨⟨?_, hm.push fun b hb => (hframe b hb).2⟩, rfl, trivial⟩
    simp [keyed]
  related_closure := by
    rintro m m' params body scope ⟨rfl, hm⟩ hparams hbody -
    exact ⟨⟨rfl, hm⟩, rfl, .closure hparams hbody⟩

theorem rename_names_keyed : rename keyed.names = id := funext rename_id

/-- Builtins may do anything with arguments that hold maps with other keys: they do not get such. -/
theorem evals_keyed {call : Caller}
    (hcall : ∀ b args, (∀ a ∈ args, a.FormKeyed) → call b args = Builtin.call b args) (n : ℕ) :
    keyed.Evals (evalDepth n) (evalDepthWith call n) := by
  refine evals_evalDepthWith lawful_keyed (fun m b args hargs => ?_) (.inl rfl)
  have hkeyed : call b (args.map (rename keyed.names)) =
      b.call (args.map (rename keyed.names)) := by
    rw [rename_names_keyed, List.map_id]
    exact hcall b args hargs
  rw [hkeyed]
  apply lawful_keyed.couples_call b hargs
  rintro m' ⟨rfl, hm⟩
  exact ⟨rfl, fun text source _ => ⟨rfl, hm⟩⟩

end Coupling

namespace Session

open Run Eval Coupling

section

variable {call : Caller}
  (hcall : ∀ b args, (∀ a ∈ args, a.FormKeyed) → call b args = Builtin.call b args) (n : ℕ)

include hcall

theorem evalLineWith_keyed (line : String) {m : Machine} (hm : m.store.All Value.FormKeyed) :
    evalLineWith (evalDepthWith call n) line m = evalLineWith (evalDepth n) line m ∧
      Outcome Value.FormKeyed (fun _ => True) (evalLineWith (evalDepth n) line m).1 ∧
      (evalLineWith (evalDepth n) line m).2.store.All Value.FormKeyed := by
  obtain ⟨f, hraise⟩ | ⟨vs, hreads⟩ := evalLineWith_raises_or_reads line
  · rw [hraise, hraise]
    exact ⟨rfl, trivial, hm⟩
  · have hforms : ∀ v ∈ vs, keyed.IsForm m v := fun v hv => ⟨line, vs, hreads, hv⟩
    have hnil : keyed.IsValue m .nil := .atom trivial
    have hscope : keyed.IsScope m rootScope := trivial
    have hcouples := evalSequence_couples lawful_keyed (evals_keyed hcall n) hscope hforms hnil
    obtain ⟨hsame, ⟨-, hstore⟩, hresult⟩ :=
      hcouples.same rfl (fun _ _ h => h.1) ⟨rfl, hm⟩ fun h => h.1
    rw [rename_names_keyed, List.map_id] at hsame
    rw [evalLineWith_of_reads _ hreads, evalLineWith_of_reads _ hreads]
    exact ⟨hsame, hresult, hstore⟩

/-- In a session all maps have forms as keys, and all goes the same way with any builtins that behave
differently only if an argument holds a map with other keys. -/
theorem run_keyed (lines : List String) {m : Machine} (hm : m.store.All Value.FormKeyed) :
    run (evalDepthWith call n) lines m = run (evalDepth n) lines m ∧
      (∀ r ∈ (run (evalDepth n) lines m).1, Outcome Value.FormKeyed (fun _ => True) r) ∧
      (run (evalDepth n) lines m).2.store.All Value.FormKeyed :=
  run_of_line (I := fun m => m.store.All Value.FormKeyed)
    (fun line _ hm => evalLineWith_keyed hcall n line hm) lines hm

end

/-- The values that programs meet: what is bound in a frame at the end of a session, what a line
gives, what makes a difference as an argument of a builtin, and what is part of such values. -/
inductive Reachable : Value → Prop
  | stored (n : ℕ) (source : Source) (lines : List String) (id : FrameId) {b : String × Value} :
      b ∈ (run (evalDepth n) lines (startWith source)).2.store.frame id → Reachable b.2
  | returned (n : ℕ) (source : Source) (lines : List String) {v : Value} :
      .ok v ∈ (run (evalDepth n) lines (startWith source)).1 → Reachable v
  | passed (n : ℕ) (source : Source) (lines : List String) {v : Value} {call : Caller} :
      (∀ b args, v ∉ args → call b args = Builtin.call b args) →
      run (evalDepthWith call n) lines (startWith source) ≠
        run (evalDepth n) lines (startWith source) → Reachable v
  | part {v part : Value} : Reachable v → part ∈ v.parts → Reachable part

/-- Whatever programs meet is well-formed and has only forms as keys. -/
theorem Reachable.comparable {v : Value} (h : Reachable v) : v.Comparable := by
  have hconforms : Conforms Builtin.call := fun _ _ _ _ _ => rfl
  have hbuiltins : ∀ b args, (∀ a ∈ args, a.FormKeyed) → Builtin.call b args = b.call args :=
    fun _ _ _ => rfl
  have hwellFormed := fun n lines source =>
    run_agree (sound_evalDepth hconforms n) lines (wellFormed_start source)
  have hkeyed := fun n lines source =>
    run_keyed hbuiltins n lines (all_start (fun _ h => .atom h) source)
  induction h with
  | stored n source lines id hb =>
    exact ⟨(hwellFormed n lines source).2.2 id _ hb, (hkeyed n lines source).2.2 id _ hb⟩
  | returned n source lines hv =>
    exact ⟨(hwellFormed n lines source).2.1 _ hv, (hkeyed n lines source).2.1 _ hv⟩
  | @passed n source lines v call hcall hdiffers =>
    -- Otherwise no builtin would get the value, and nothing would differ.
    constructor
    · by_contra hv
      refine hdiffers (run_agree (sound_evalDepth ?_ n) lines (wellFormed_start source)).1
      intro b args m hargs _
      rw [hcall b args fun hmem => hv (hargs v hmem)]
    · by_contra hv
      refine hdiffers (run_keyed ?_ n lines (all_start (fun _ h => .atom h) source)).1
      exact fun b args hargs => hcall b args fun hmem => hv (hargs v hmem)
  | part _ hpart ih => exact ih.part _ hpart

/-- For values that programs meet, it makes no difference which of the two is compared with the
other. Two maps of this kind are equal if the same texts stand for keys in both, with equal values
under each text, in whatever order the keys came. -/
theorem equal_comm_of_reachable {a b : Value} (ha : Reachable a) (hb : Reachable b) :
    a.equal b = b.equal a ∧
    ∀ d e : Dict, a = .map d → b = .map e →
      (a.equal b = true ↔ (∀ text, text ∈ d.texts ↔ text ∈ e.texts) ∧
        ∀ x ∈ d, ∀ y ∈ e, x.1.render = y.1.render → x.2.equal y.2 = true) := by
  have hcomm := fun {a b : Value} => Value.equal_comm (a := a) (b := b)
  refine ⟨hcomm ha.comparable hb.comparable, ?_⟩
  rintro d e rfl rfl
  obtain ⟨hd, hdforms, hdvalues⟩ := ha.comparable.entries
  obtain ⟨he, heforms, hevalues⟩ := hb.comparable.entries
  rw [Value.equal_map_iff_texts hd he hdforms heforms]
  refine and_congr_right fun _ => forall₂_congr fun x hx => forall₂_congr fun y hy => ?_
  rw [hcomm (hdvalues x hx) (hevalues y hy)]

/-- The keys came in another order, and a list stands for a vector. -/
theorem equal_comm_of_reachable_reordered :
    ∃ d e : Dict,
      (∃ m, run (evalDepth 9) ["\x7bx 1 y [2]\x7d"] (start 0) = ([.ok (.map d)], m)) ∧
      (∃ m, run (evalDepth 9) ["\x7by (list 2) x 1\x7d"] (start 0) = ([.ok (.map e)], m)) ∧
      d.texts = ["x", "y"] ∧ e.texts = ["y", "x"] ∧
      (Value.map d).equal (.map e) = true ∧ (Value.map e).equal (.map d) = true := by
  let d : Dict := [(.symbol "x", .int 1), (.symbol "y", .vector [.int 2])]
  let e : Dict := [(.symbol "y", .list [.int 2]), (.symbol "x", .int 1)]
  have hd : run (evalDepth 9) ["\x7bx 1 y [2]\x7d"] (start 0) = ([.ok (.map d)], start 0) := by
    unfold d
    cbv
  have he : run (evalDepth 9) ["\x7by (list 2) x 1\x7d"] (start 0) =
      ([.ok (.map e)], start 0) := by
    unfold e
    cbv
  have hreached : Reachable (.map d) :=
    .returned 9 (.ofSeed 0) ["\x7bx 1 y [2]\x7d"] (by rw [← start_eq, hd]; exact List.mem_singleton_self _)
  have hreached' : Reachable (.map e) :=
    .returned 9 (.ofSeed 0) ["\x7by (list 2) x 1\x7d"] (by rw [← start_eq, he]; exact List.mem_singleton_self _)
  have hdtexts : d.texts = ["x", "y"] := rfl
  have hetexts : e.texts = ["y", "x"] := rfl
  obtain ⟨hcomm, hmaps⟩ := equal_comm_of_reachable hreached hreached'
  have hequal : (Value.map d).equal (.map e) = true := by
    refine (hmaps d e rfl rfl).mpr ⟨?_, ?_⟩
    · simp [hdtexts, hetexts, or_comm]
    · simp [d, e, Value.render, Value.equal, Value.equalItems, Number.equal]
  exact ⟨d, e, ⟨_, hd⟩, ⟨_, he⟩, hdtexts, hetexts, hequal, hcomm.symm.trans hequal⟩

end Session

end MatrixLisp
