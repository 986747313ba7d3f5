import Mathlib.Tactic
import MatrixLisp.Proofs.Builtin.Effects
import MatrixLisp.Proofs.Eval.Depth
import MatrixLisp.Proofs.Eval.Rules
import MatrixLisp.Proofs.Program
import MatrixLisp.Proofs.Reader.Keys
import MatrixLisp.Proofs.Value.Symbols

/-!
# Evaluation without closures ends

Only a call of a closure evaluates a form that is not part of the form at hand. A form without `fn*`
makes no closure, and it finds none in frames that bind none, so that all it evaluates are its own
parts. Evaluation then ends at the depth to which the form nests its parts, whatever the frames bind,
and leaves no closure behind.
-/
namespace MatrixLisp

namespace Value

/-- No closure is in a value. -/
abbrev ClosureFree : Value → Prop := AllClosures fun _ _ => False

mutual

/-- How deep the evaluation of a form nests that of its parts. -/
def depth : Value → ℕ
  | list items => depthItems items + 1
  | vector items => depthItems items + 1
  | map entries => depthEntries entries + 1
  | _ => 1

def depthItems : List Value → ℕ
  | [] => 0
  | v :: rest => max v.depth (depthItems rest)

def depthEntries : List (Value × Value) → ℕ
  | [] => 0
  | (_, v) :: rest => max v.depth (depthEntries rest)

end

theorem depth_pos (v : Value) : 0 < v.depth := by
  cases v <;> simp [depth]

theorem depth_le_depthItems {items : List Value} {v : Value} (h : v ∈ items) :
    v.depth ≤ depthItems items := by
  induction items with
  | nil => cases h
  | cons first rest ih =>
    rw [depthItems]
    rcases List.mem_cons.mp h with rfl | h
    · exact le_max_left ..
    · exact (ih h).trans (le_max_right ..)

theorem depth_le_depthEntries {entries : Dict} {e : Value × Value} (h : e ∈ entries) :
    e.2.depth ≤ depthEntries entries := by
  induction entries with
  | nil => cases h
  | cons first rest ih =>
    rw [depthEntries]
    rcases List.mem_cons.mp h with rfl | h
    · exact le_max_left ..
    · exact (ih h).trans (le_max_right ..)

/-- A form that holds no closure, makes none, and nests its parts at most so deep. -/
structure Passive (n : ℕ) (v : Value) : Prop where
  closureFree : v.ClosureFree
  omits : v.Omits "fn*"
  depth_le : v.depth ≤ n

namespace Passive

variable {n : ℕ} {v : Value}

theorem mono (h : v.Passive n) {k : ℕ} (hk : n ≤ k) : v.Passive k :=
  ⟨h.closureFree, h.omits, h.depth_le.trans hk⟩

theorem items (h : v.Passive (n + 1)) {items : List Value} (hitems : v.items? = some items) :
    ∀ item ∈ items, item.Passive n := by
  intro item hitem
  refine ⟨h.closureFree.items hitems item hitem, h.omits.items hitems item hitem, ?_⟩
  have hdepth : depthItems items + 1 ≤ n + 1 := by
    cases v with
    | list => cases hitems; exact h.depth_le
    | vector => cases hitems; exact h.depth_le
    | _ => cases hitems
  exact (depth_le_depthItems hitem).trans (Nat.le_of_succ_le_succ hdepth)

theorem entries {d : Dict} (h : (Value.map d).Passive (n + 1)) :
    ∀ e ∈ d, e.1.ClosureFree ∧ e.2.Passive n := by
  intro e he
  obtain ⟨hkey, hvalue⟩ := h.closureFree.entries e he
  refine ⟨hkey, hvalue, (h.omits.entries e he).2, ?_⟩
  exact (depth_le_depthEntries he).trans (Nat.le_of_succ_le_succ h.depth_le)

end Passive

end Value

/-- No closure is read. -/
theorem Reader.IsForm.closureFree {v : Value} (h : IsForm v) : v.ClosureFree := by
  induction v using Value.parts_induction with
  | atom v hv => exact .atom hv
  | list items ih => exact .list fun v hv => ih v hv (h.items rfl v hv)
  | vector items ih => exact .vector fun v hv => ih v hv (h.items rfl v hv)
  | map entries ih =>
    exact .map (fun e he => (ih e he).1 (h.entries e he).1) fun e he =>
      (ih e he).2 (h.entries e he).2
  | closure id params body scope => exact absurd rfl (h.ne_closure id params body scope)

open Value

namespace Store

/-- No closure is bound in the frames of a scope. -/
def ClosureFreeIn (scope : Scope) (s : Store) : Prop :=
  ∀ id ∈ scope.chain, ∀ b ∈ s.frame id, b.2.ClosureFree

namespace ClosureFreeIn

variable {scope : Scope} {s : Store}

theorem bind (h : ClosureFreeIn scope s) (target : Scope) (name : String) {value : Value}
    (hvalue : value.ClosureFree) : ClosureFreeIn scope (s.bind target name value) := by
  intro id hid
  by_cases hinner : id = target.inner
  · subst hinner
    rcases Nat.lt_or_ge target.inner s.frames.size with hlt | hle
    · rw [frame_bind_self s name value hlt]
      exact Frame.forall_bind (P := fun _ v => v.ClosureFree) (h _ hid) hvalue
    · rw [bind_of_size_le s name value hle]
      exact h _ hid
  · rw [frame_bind_of_ne s name value hinner]
    exact h id hid

/-- In a new empty frame no closure is bound. -/
theorem push (h : ClosureFreeIn scope s) :
    ClosureFreeIn (scope.extend s.frames.size) (s.push []) := by
  intro id hid
  by_cases hlast : id = s.frames.size
  · rw [hlast, frame_push_self]
    simp
  · rw [frame_push_of_ne s [] hlast]
    exact h id ((List.mem_cons.mp hid).resolve_left hlast)

theorem of_extend {inner : FrameId} (h : ClosureFreeIn (scope.extend inner) s) :
    ClosureFreeIn scope s := fun id hid => h id (List.mem_cons_of_mem _ hid)

theorem find? (h : ClosureFreeIn scope s) {name : String} {value : Value}
    (hfind : s.find? scope name = some value) : value.ClosureFree := by
  obtain ⟨id, hid, hvalue⟩ := List.exists_of_findSome?_eq_some hfind
  exact h id hid _ (Frame.mem_of_find? hvalue)

end ClosureFreeIn

end Store

namespace Eval

open Run Store

/-- A run ends, and if no closure is bound in a scope before, then none is afterwards, and none comes
out. -/
abbrev Finishes (scope : Scope) : Run Value → Prop :=
  Meets (ClosureFreeIn scope) ClosureFree (· ≠ .tooDeep)

theorem admitted_ne_tooDeep : Halt.Admitted (· ≠ .tooDeep) := ⟨fun _ _ => nofun, fun _ => nofun⟩

theorem finishes_raise {scope : Scope} (f : Fault) : Finishes scope (raise f) :=
  meets_raise nofun

/-- What ends in a new frame inside a scope ends. -/
theorem finishes_enter_bind {scope : Scope} {f : Scope → Run Value}
    (h : ∀ id, Finishes (scope.extend id) (f (scope.extend id))) :
    Finishes scope (enter scope >>= f) := by
  intro m hm
  obtain ⟨hresult, hstore⟩ := h m.store.frames.size { m with store := m.store.push [] } hm.push
  exact ⟨hresult, hstore.of_extend⟩

/-- All forms without closures that nest their parts at most so deep are evaluated to the end. -/
def Terminates (n : ℕ) (eval : Evaluator) : Prop :=
  ∀ scope form, form.Passive n → Finishes scope (eval form scope)

section

variable {n : ℕ} {eval : Evaluator} (heval : Terminates n eval) {scope : Scope}
  {args : List Value} (hargs : ∀ form ∈ args, form.Passive n)

include heval

theorem Terminates.agree (scope : Scope) (form : Value) (hform : form.Passive n) :
    Agree (ClosureFreeIn scope) ClosureFree (· ≠ .tooDeep) (eval form scope) (eval form scope) :=
  (heval scope form hform).agree

include hargs

theorem evalDefine_finishes : Finishes scope (evalDefine eval args scope) :=
  (evalDefine_agree (heval.agree scope) admitted_ne_tooDeep hargs
    fun name _ _ _ _ hv hs => hs.bind scope name hv).meets

theorem evalBranch_finishes : Finishes scope (evalBranch eval args scope) :=
  (evalBranch_agree (heval.agree scope) admitted_ne_tooDeep hargs (.atom trivial)).meets

theorem evalSequence_finishes : Finishes scope (evalSequence eval scope args .nil) := by
  have hnil : ClosureFree .nil := .atom trivial
  exact (evalSequence_agree (heval.agree scope) hargs hnil).meets

/-- The forms of a `let*` are nested deeper by one than its arguments. -/
theorem evalBindIn_finishes : Finishes scope (evalBindIn eval args scope) := by
  unfold evalBindIn
  split
  · rename_i bindings body
    split
    · rename_i forms hforms
      split_ifs
      · have hpairs := Dict.forall_pairs
          (((hargs bindings (by simp)).mono n.le_succ).items hforms)
        apply finishes_enter_bind
        intro id
        apply (bindEach_agree (heval.agree (scope.extend id)) admitted_ne_tooDeep
          (fun b hb => (hpairs b hb).2) fun name v s hv hs => hs.bind _ name hv).meets.bind
        intro _ _
        exact heval _ body (hargs body (by simp))
      · exact finishes_raise _
    · exact finishes_raise _
  · exact finishes_raise _

theorem evalSpecial_finishes {special : SpecialForm} (hspecial : special ≠ .function) :
    Finishes scope (evalSpecial eval special args scope) := by
  cases special with
  | define => exact evalDefine_finishes heval hargs
  | bindIn => exact evalBindIn_finishes heval hargs
  | sequence => exact evalSequence_finishes heval hargs
  | branch => exact evalBranch_finishes heval hargs
  | function => exact absurd rfl hspecial
  | quote =>
    exact evalQuote_meets admitted_ne_tooDeep fun form hform => (hargs form hform).closureFree

omit hargs in
theorem evalEntries_finishes {entries : Dict}
    (h : ∀ e ∈ entries, e.1.ClosureFree ∧ e.2.Passive n) :
    Meets (ClosureFreeIn scope) (fun d => (Value.map d).ClosureFree) (· ≠ .tooDeep)
      (evalEntries eval scope entries []) := by
  have hempty : (Value.map []).ClosureFree := .map (by simp) (by simp)
  apply (evalEntries_agree (heval.agree scope) (fun e he => (h e he).2) ?_ hempty).meets
  intro e he d v hd hv
  have hentries := Dict.forall_insert hd.entries (h e he).1 hv
  exact .map (fun e he => (hentries e he).1) fun e he => (hentries e he).2

end

/-- Without closures, a call is that of a builtin. -/
theorem applyWith_finishes {eval : Evaluator} {scope : Scope} {function : Value}
    (hfunction : function.ClosureFree) {args : List Value} (hargs : ∀ a ∈ args, a.ClosureFree) :
    Finishes scope (applyWith Builtin.call eval function args) := by
  cases function with
  | builtin b =>
    apply (Builtin.call_made args admitted_ne_tooDeep b).mono
    rintro v (hatom | rfl)
    · exact .atom hatom
    · exact .list hargs
  | closure =>
    cases hfunction with
    | atom h => cases h
    | closure h => exact h.elim
  | _ => exact finishes_raise _

/-- If forms of some depth are evaluated to the end, so are those deeper by one. -/
theorem Terminates.evalForm {n : ℕ} {eval : Evaluator} (heval : Terminates n eval) :
    Terminates (n + 1) (evalForm Builtin.call eval) := by
  intro scope form hform
  cases form with
  | symbol name =>
    apply meets_withStore
    intro s hs
    unfold Store.lookup
    split
    · rename_i hfind
      exact hs.find? hfind
    · exact nofun
  | list items =>
    cases items with
    | nil => exact meets_pure hform.closureFree
    | cons head tail =>
      have hitems := hform.items rfl
      have htail : ∀ form ∈ tail, form.Passive n := fun form h => hitems form (by simp [h])
      simp only [Eval.evalForm]
      cases hspecial : head.symbol?.bind SpecialForm.ofName? with
      | some special =>
        apply evalSpecial_finishes heval htail
        rintro rfl
        have homits := (hitems head (by simp)).omits
        rw [eq_symbol_of_special hspecial, Omits.symbol_iff] at homits
        exact homits rfl
      | none =>
        apply (heval scope head (hitems head (by simp))).bind
        intro function hfunction
        apply (evalEach_agree (heval.agree scope) htail).meets.bind
        intro args hargs
        exact applyWith_finishes hfunction hargs
  | vector items =>
    apply (evalEach_agree (heval.agree scope) (hform.items rfl)).meets.bind
    intro vs hvs
    exact meets_pure (.vector hvs)
  | map entries =>
    apply (evalEntries_finishes heval hform.entries).bind
    intro d hd
    exact meets_pure hd
  | _ => exact meets_pure hform.closureFree

theorem terminates_evalDepth (n : ℕ) : Terminates n (evalDepth n) := by
  induction n with
  | zero => exact fun scope form hform => absurd hform.depth_le (Nat.not_le.mpr form.depth_pos)
  | succ n ih => exact ih.evalForm

/-- A form without `fn*` that is evaluated in frames without closures comes to an end at the depth of
the form and at all greater ones, whatever else is bound, with one outcome. Neither its value nor the
frames then hold a closure. -/
theorem evalDepth_finishes {form : Value} (hform : Reader.IsForm form) (hfn : form.Omits "fn*")
    (scope : Scope) {m : Machine} (hm : ∀ id ∈ scope.chain, ∀ b ∈ m.store.frame id, b.2.ClosureFree) :
    ∃ r m', r ≠ .error .tooDeep ∧ (∀ n, form.depth ≤ n → evalDepth n form scope m = (r, m')) ∧
      (∀ v, r = .ok v → v.ClosureFree) ∧
      ∀ id ∈ scope.chain, ∀ b ∈ m'.store.frame id, b.2.ClosureFree := by
  have hpassive : form.Passive form.depth := ⟨hform.closureFree, hfn, le_rfl⟩
  obtain ⟨hresult, hstore⟩ := terminates_evalDepth form.depth scope form hpassive m hm
  have hends : (evalDepth form.depth form scope m).1 ≠ .error .tooDeep := by
    intro h
    rw [h] at hresult
    exact hresult rfl
  refine ⟨_, _, hends, fun n hn => evalDepth_of_le hn hends, ?_, hstore⟩
  intro v hv
  rw [hv] at hresult
  exact hresult

/-- A definition among the arguments of a call, a `let*` and quoted data, in the root frame of a
session. -/
theorem evalDepth_finishes_definition :
    ∃ form m', Reader.Reads "(list (def! a '(b 1)) (let* (c a) \x7bk c\x7d))" [form] ∧
      form.depth = 5 ∧
      (∀ n, 5 ≤ n → evalDepth n form Session.rootScope (Session.start 0) =
        (.ok (.list [.list [.symbol "b", .int 1],
          .map [(.symbol "k", .list [.symbol "b", .int 1])]]), m')) ∧
      ∀ b ∈ m'.store.frame 0, b.2.ClosureFree := by
  let form : Value := .list [.symbol "list",
    .list [.symbol "def!", .symbol "a", .list [.symbol "quote", .list [.symbol "b", .int 1]]],
    .list [.symbol "let*", .list [.symbol "c", .symbol "a"],
      .map [(.symbol "k", .symbol "c")]]]
  have hreads : Reader.Reads "(list (def! a '(b 1)) (let* (c a) \x7bk c\x7d))" [form] := by
    unfold form
    cbv
  have hdepth : form.depth = 5 := by
    unfold form
    cbv
  have hresult : (evalDepth 5 form Session.rootScope (Session.start 0)).1 =
      .ok (.list [.list [.symbol "b", .int 1],
        .map [(.symbol "k", .list [.symbol "b", .int 1])]]) := by
    unfold form
    cbv
  have hfn : form.Omits "fn*" := by simp [form]
  have hroot : (Session.start 0).store.All ClosureFree :=
    Session.all_start (fun _ h => .atom h) (.ofSeed 0)
  obtain ⟨r, m', -, hrun, -, hframes⟩ := evalDepth_finishes ⟨_, _, hreads, by simp⟩ hfn
    Session.rootScope fun id _ => hroot id
  rw [hdepth] at hrun
  have hr : r = _ := (congrArg Prod.fst (hrun 5 le_rfl)).symm.trans hresult
  subst hr
  exact ⟨form, m', hreads, hdepth, hrun, hframes 0 (by decide)⟩

end Eval

end MatrixLisp
