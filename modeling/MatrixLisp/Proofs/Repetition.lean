import Mathlib.Tactic
import MatrixLisp.Proofs.Eval.Mirror
import MatrixLisp.Proofs.Program
import MatrixLisp.Proofs.Session

/-!
# Calling a closure twice

Every machine that a session leads to is closed. A call on a closed machine changes no frame from
before, so that the machine after the call mirrors the one before it. A second call then goes as the
first did: it gives the same but for the names of what was made meanwhile, and prints the same.
-/
namespace MatrixLisp

open Run Eval Coupling

namespace Coupling

/-- A run that respects mirrors leads from a closed machine to a closed one. -/
theorem Couples.closed {α β : Type} {m : Machine} (hm : m.Closed) {f : α → β}
    {P : Machine → α → Prop} {x : Run α} {y : Run β} (h : (mirror m m).Couples m f P x y) :
    m.Grows (x m).2 ∧ (x m).2.Closed ∧ Outcome (P (x m).2) (fun _ => True) (x m).1 := by
  have hstart : Mirrors m m m m := mirrors_start hm (Store.Kept.refl _) le_rfl rfl
  rcases h m hstart with ⟨hlenient, -⟩ | ⟨hgrows, hmirrors, -, hresult⟩
  · exact hlenient.elim
  · exact ⟨hgrows, hmirrors.closed, hresult⟩

end Coupling

/-- What is read names no frame and no closure. -/
theorem Reader.Denotes.livesIn {spelling : List TokenKind} {v : Value} (h : Denotes spelling v) :
    v.LivesIn 0 0 := by
  induction h with
  | atom hs =>
    obtain ⟨q, rfl, -⟩ | ⟨x, rfl, -⟩ | ⟨n, rfl⟩ | rfl := Literal.classify_cases hs
    all_goals exact .atom trivial
  | string => exact .atom trivial
  | caret => exact .atom trivial
  | semicolon => exact .atom trivial
  | list _ ih => exact .list (Parts.forall_values ih)
  | vector _ ih => exact .vector (Parts.forall_values ih)
  | map _ _ ih =>
    have hentries := Dict.forall_ofList (Dict.forall_pairs (Parts.forall_values ih))
    exact .map (fun e he => (hentries e he).1) fun e he => (hentries e he).2
  | mark m _ ih =>
    refine .list fun v hv => ?_
    rcases List.mem_cons.mp hv with rfl | hv
    · exact .atom trivial
    · rw [List.mem_singleton.mp hv]
      exact ih

namespace Session

theorem closed_start (source : Source) : (startWith source).Closed :=
  all_start (fun _ h => .atom h) source

/-- A line leads from a closed machine to a closed one. -/
theorem evalLineWith_closed (n : ℕ) (line : String) {m : Machine} (hm : m.Closed)
    (hroot : 0 < m.store.frames.size) :
    m.Grows (evalLineWith (evalDepth n) line m).2 ∧
      (evalLineWith (evalDepth n) line m).2.Closed ∧
      Outcome (evalLineWith (evalDepth n) line m).2.Has (fun _ => True)
        (evalLineWith (evalDepth n) line m).1 := by
  obtain ⟨f, hraise⟩ | ⟨vs, hreads⟩ := evalLineWith_raises_or_reads line
  · rw [hraise]
    exact ⟨.refl m, hm, trivial⟩
  · have hforms : ∀ v ∈ vs, m.Has v := by
      obtain ⟨parts, hparts, -, hvalues⟩ := Reader.reads_iff_spells.mp hreads
      rw [← hvalues]
      refine Reader.Parts.forall_values fun p hp => ?_
      exact (hparts p hp).livesIn.mono (Nat.zero_le _) (Nat.zero_le _)
    have hscope : rootScope.LivesIn m.store.frames.size := by
      intro id hid
      rw [List.mem_singleton.mp hid]
      exact hroot
    have hnil : m.Has .nil := .atom trivial
    rw [evalLineWith_of_reads _ hreads]
    have hcouples := evalSequence_couples (lawful_mirror m m) (evals_mirror m m n) hscope hforms
      hnil
    exact hcouples.closed hm

/-- A session leads from a closed machine to a closed one, which has all results. -/
theorem run_closed (n : ℕ) (lines : List String) {m : Machine} (hm : m.Closed)
    (hroot : 0 < m.store.frames.size) :
    m.Grows (run (evalDepth n) lines m).2 ∧ (run (evalDepth n) lines m).2.Closed ∧
      ∀ v, .ok v ∈ (run (evalDepth n) lines m).1 → (run (evalDepth n) lines m).2.Has v := by
  induction lines generalizing m with
  | nil => exact ⟨.refl m, hm, by simp [run]⟩
  | cons line rest ih =>
    obtain ⟨hgrows, hclosed, hresult⟩ := evalLineWith_closed n line hm hroot
    obtain ⟨hgrows', hclosed', hresults⟩ := ih hclosed (hroot.trans_le hgrows.frames)
    refine ⟨hgrows.trans hgrows', hclosed', fun v hv => ?_⟩
    rcases List.mem_cons.mp hv with hv | hv
    · have hline : (evalLineWith (evalDepth n) line m).1 = .ok v := hv.symm
      rw [hline] at hresult
      exact hgrows'.has hresult
    · exact hresults v hv

end Session

namespace Eval

/-- A run goes the same way whatever the builtins that draw random numbers do: it does not call
them. -/
def NeverDraws {α : Type} (x : Caller → Run α) (m : Machine) : Prop :=
  ∀ call : Caller, (∀ b : Builtin, ¬b.Draws → call b = b.call) → x call m = x Builtin.call m

/-- Builtins that give up, as if they went too deep, instead of drawing random numbers. -/
def callWithoutDraws (b : Builtin) (args : List Value) : Run Value :=
  if b.Draws then halt .tooDeep else b.call args

variable {n : ℕ} {params : List Value} {body : Value} {scope : Scope} {args : List Value}
  {m : Machine}

/-- A call that never draws leaves the source of random numbers as it was. -/
theorem NeverDraws.random_eq
    (h : NeverDraws (fun call => callClosure (evalDepthWith call n) params body scope args) m) :
    (callClosure (evalDepth n) params body scope args m).2.random = m.random := by
  let c := diagonal (· = m.random) False
  have hc : c.Lawful := lawful_diagonal _ _
  have hcalls : c.Calls callWithoutDraws callWithoutDraws := by
    intro m b args _
    unfold callWithoutDraws
    split_ifs with hdraws
    · exact couples_halt _
    · exact couples_call_diagonal b (.inl hdraws) m args
  have heval := evals_evalDepthWith hc hcalls (.inl (rfl : n = n))
  have hclosure : c.IsValue m (.closure 0 params body scope) := trivial
  have hargs : ∀ a ∈ args, c.IsValue m a := fun _ _ => trivial
  have hsame := h callWithoutDraws fun b hb => funext fun _ => if_neg hb
  rcases callClosure_couples hc heval hclosure hargs m ⟨rfl, rfl⟩ with
    ⟨hlenient, -⟩ | ⟨-, ⟨-, hrandom⟩, -⟩
  · exact hlenient.elim
  · exact (congrArg (·.2.random) hsame).symm.trans hrandom

/-- A call that ends although its builtins give up instead of drawing never draws. -/
theorem neverDraws_of_ne_tooDeep
    (h : (callClosure (evalDepthWith callWithoutDraws n) params body scope args m).1 ≠
      .error .tooDeep) :
    NeverDraws (fun call => callClosure (evalDepthWith call n) params body scope args) m := by
  let c := diagonal (fun _ => True) True
  have hc : c.Lawful := lawful_diagonal _ _
  have hsame : ∀ call : Caller, (∀ b : Builtin, ¬b.Draws → call b = b.call) →
      callClosure (evalDepthWith call n) params body scope args m =
        callClosure (evalDepthWith callWithoutDraws n) params body scope args m := by
    intro call hcall
    have hcalls : c.Calls callWithoutDraws call := by
      intro m b args _
      unfold callWithoutDraws
      split_ifs with hdraws
      · exact fun _ _ => .inl ⟨trivial, rfl⟩
      · rw [hcall b hdraws]
        exact couples_call_diagonal b (.inl hdraws) m args
    have heval := evals_evalDepthWith hc hcalls (.inl (rfl : n = n))
    have hclosure : c.IsValue m (.closure 0 params body scope) := trivial
    have hargs : ∀ a ∈ args, c.IsValue m a := fun _ _ => trivial
    have hcouples := callClosure_couples hc heval hclosure hargs
    have hnames : Value.rename c.names = id := funext Value.rename_id
    have hsame := Couples.eq_of_diagonal hcouples trivial h
    rw [hnames] at hsame
    simpa only [c, diagonal, List.map_id, id, Scope.rename_id] using hsame
  intro call hcall
  exact (hsame call hcall).trans (hsame Builtin.call fun _ _ => rfl).symm

/-- The machine after a second call mirrors the machine after the first. -/
theorem callClosure_again (hm : m.Closed) {id : ℕ}
    (hclosure : m.Has (.closure id params body scope)) (hargs : ∀ a ∈ args, m.Has a)
    (hdraws : NeverDraws (fun call => callClosure (evalDepthWith call n) params body scope args) m)
    {r : Except Halt Value} {m' : Machine}
    (hrun : callClosure (evalDepth n) params body scope args m = (r, m')) :
    ∃ m'', callClosure (evalDepth n) params body scope args m' =
      (r.map (Value.rename (.between m m')), m'') ∧ Mirrors m m' m' m'' := by
  have hkept : m.store.Kept m'.store := by
    have hkeeps := applyWith_keeps (confines_evalDepth n) (.closure id params body scope) args m
      (Store.Kept.refl m.store)
    have hstore := hkeeps.2
    rw [applyWith, hrun] at hstore
    exact hstore
  have hclosures : m.closures ≤ m'.closures := by
    have hsame := callClosure_couples (lawful_mirror m m) (evals_mirror m m n) hclosure hargs
    have hgrows := (hsame.closed hm).1.closures
    rw [hrun] at hgrows
    exact hgrows
  have hrandom := hdraws.random_eq
  rw [hrun] at hrandom
  have hstart : Mirrors m m' m m' := mirrors_start hm hkept hclosures hrandom
  have hnames : (Value.closure id params body scope).rename (.between m m') =
      .closure id params body scope := hclosure.rename_between
  rw [Value.rename_closure] at hnames
  obtain ⟨-, hparams, hbody, hscope⟩ := Value.closure.inj hnames
  have hargs' : args.map (Value.rename (.between m m')) = args := by
    rw [List.map_congr_left fun a ha => (hargs a ha).rename_between, List.map_id']
  have hcouples := callClosure_couples (lawful_mirror m m') (evals_mirror m m' n) hclosure hargs m'
    hstart
  have hnamed : (mirror m m').names = .between m m' := rfl
  rw [hnamed, hparams, hbody, hscope, hargs', hrun] at hcouples
  rcases hcouples with ⟨hlenient, -⟩ | ⟨-, hmirrors, hsame, -⟩
  · exact hlenient.elim
  · exact ⟨_, Prod.ext hsame rfl, hmirrors⟩

/-- Every machine that a session leads to is closed and has the results, and evaluation leads from
closed machines to closed ones. On a closed machine, a call of a closure that never draws can be
repeated: the second call gives what the first gave, the frames and closures of the first call being
named as those of the second, makes the same frames, and prints the same text. -/
theorem callClosure_repeats (n : ℕ) :
    (∀ source lines, (Session.run (evalDepth n) lines (Session.startWith source)).2.Closed ∧
      ∀ v, .ok v ∈ (Session.run (evalDepth n) lines (Session.startWith source)).1 →
        (Session.run (evalDepth n) lines (Session.startWith source)).2.Has v) ∧
    (∀ form scope m r m', m.Closed → m.Has form → scope.LivesIn m.store.frames.size →
      evalDepth n form scope m = (r, m') → m'.Closed ∧ ∀ v, r = .ok v → m'.Has v) ∧
    (∀ id params body scope args m r m', m.Closed → m.Has (.closure id params body scope) →
      (∀ a ∈ args, m.Has a) →
      NeverDraws (fun call => callClosure (evalDepthWith call n) params body scope args) m →
      callClosure (evalDepth n) params body scope args m = (r, m') →
      ∃ m'' text,
        callClosure (evalDepth n) params body scope args m' =
          (r.map (Value.rename (.between m m')), m'') ∧
        (∀ id, m''.store.frame ((Renaming.between m m').frame id) =
          (m'.store.frame id).rename (.between m m')) ∧
        m'.output = m.output ++ text ∧ m''.output = m'.output ++ text) := by
  refine ⟨?_, ?_, ?_⟩
  · intro source lines
    exact (Session.run_closed n lines (Session.closed_start source) Nat.zero_lt_one).2
  · intro form scope m r m' hm hform hscope hrun
    obtain ⟨-, hclosed, hresult⟩ := (evals_mirror m m n m scope form hscope hform).closed hm
    rw [hrun] at hclosed hresult
    refine ⟨hclosed, ?_⟩
    rintro v rfl
    exact hresult
  · intro id params body scope args m r m' hm hclosure hargs hdraws hrun
    obtain ⟨m'', hagain, hmirrors⟩ := callClosure_again hm hclosure hargs hdraws hrun
    obtain ⟨text, hfirst, hsecond⟩ := hmirrors.output_eq
    exact ⟨m'', text, hagain, hmirrors.frame_eq, hfirst, hsecond⟩

/-- A closure that prints its argument and captures its frame: the second call prints the same and
captures a frame of its own. -/
theorem callClosure_repeats_capture :
    ∃ params body m m' m'' text,
      Session.run (evalDepth 9) ["(fn* (x) (do (prn x) (fn* () x)))"] (Session.start 0) =
        ([.ok (.closure 0 params body Session.rootScope)], m) ∧
      callClosure (evalDepth 9) params body Session.rootScope [.int 3] m =
        (.ok (.closure 1 [] (.symbol "x") ⟨1, [0]⟩), m') ∧
      callClosure (evalDepth 9) params body Session.rootScope [.int 3] m' =
        (.ok (.closure 2 [] (.symbol "x") ⟨2, [0]⟩), m'') ∧
      m'.output = m.output ++ text ∧ m''.output = m'.output ++ text := by
  let body : Value := .list [.symbol "do", .list [.symbol "prn", .symbol "x"],
    .list [.symbol "fn*", .list [], .symbol "x"]]
  let m : Machine := { Session.start 0 with closures := 1 }
  let m' := (callClosure (evalDepth 9) [.symbol "x"] body Session.rootScope [.int 3] m).2
  have hsession : Session.run (evalDepth 9) ["(fn* (x) (do (prn x) (fn* () x)))"]
      (Session.start 0) = ([.ok (.closure 0 [.symbol "x"] body Session.rootScope)], m) := by
    unfold body m
    cbv
  have hfirst : (callClosure (evalDepth 9) [.symbol "x"] body Session.rootScope [.int 3] m).1 =
      .ok (.closure 1 [] (.symbol "x") ⟨1, [0]⟩) := by
    unfold body m
    cbv
  have hwithout : (callClosure (evalDepthWith callWithoutDraws 9) [.symbol "x"] body
      Session.rootScope [.int 3] m).1 = .ok (.closure 1 [] (.symbol "x") ⟨1, [0]⟩) := by
    unfold body m
    cbv
  have hnames : (Value.closure 1 [] (.symbol "x") ⟨1, [0]⟩).rename (.between m m') =
      .closure 2 [] (.symbol "x") ⟨2, [0]⟩ := by
    unfold m' body m
    cbv
  have hargs : ∀ a ∈ [Value.int 3], m.Has a := by
    intro a ha
    rw [List.mem_singleton.mp ha]
    exact .atom trivial
  obtain ⟨hsessions, -, hrepeats⟩ := callClosure_repeats 9
  obtain ⟨hclosed, hhas⟩ := hsessions (.ofSeed 0) ["(fn* (x) (do (prn x) (fn* () x)))"]
  rw [← Session.start_eq, hsession] at hclosed hhas
  have hends : (callClosure (evalDepthWith callWithoutDraws 9) [.symbol "x"] body
      Session.rootScope [.int 3] m).1 ≠ .error .tooDeep := by
    rw [hwithout]
    intro h
    cases h
  have hnever := neverDraws_of_ne_tooDeep hends
  obtain ⟨m'', text, hsecond, -, houtput⟩ := hrepeats 0 _ _ _ _ m _ m' hclosed
    (hhas _ (List.mem_singleton.mpr rfl)) hargs hnever (Prod.ext hfirst rfl)
  rw [Except.map, hnames] at hsecond
  exact ⟨_, body, m, m', m'', text, hsession, Prod.ext hfirst rfl, hsecond, houtput⟩

end Eval

end MatrixLisp
