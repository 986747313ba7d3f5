import Mathlib.Tactic
import MatrixLisp.Eval.Machine
import MatrixLisp.Proofs.Eval.Bindings
import MatrixLisp.Proofs.Value.Renaming

/-!
# Frames and their history

Environments are made and changed by a few operations. A history of operations notes which frame
lies inside which, and all bindings in the order in which they were made, and forgets none. A name is
found with the value of the latest binding in the innermost frame that has one; the frames of a store
hold just what is needed for that.
-/
namespace MatrixLisp

/-- The operations on environments. Environments are numbered in the order in which they are made,
and clones share a number's frames. -/
inductive Operation where
  | new
  | withBindings (bindings : List (String × Value))
  | child (env : ℕ)
  | clone (env : ℕ)
  | withParams (env : ℕ) (params args : List Value)
  | bind (env : ℕ) (name : String) (value : Value)

/-- A store with the environments that were made in it. -/
structure Environments where
  store : Store
  scopes : List Scope

namespace Environments

def empty : Environments := ⟨.empty, []⟩

/-- One more environment, in a store that has its frame. -/
def add (e : Environments) (made : Scope × Store) : Environments := ⟨made.2, e.scopes ++ [made.1]⟩

/-- Performs an operation. One on an environment that was not made does nothing. -/
def perform (e : Environments) : Operation → Except Fault Unit × Environments
  | .new => (.ok (), e.add (e.store.root []))
  | .withBindings bindings => (.ok (), e.add (e.store.root (.ofList bindings)))
  | .child env =>
    match e.scopes[env]? with
    | some scope => (.ok (), e.add (e.store.nest scope []))
    | none => (.ok (), e)
  | .clone env =>
    match e.scopes[env]? with
    | some scope => (.ok (), e.add (scope, e.store))
    | none => (.ok (), e)
  | .withParams env params args =>
    match e.scopes[env]? with
    | some scope =>
      match e.store.nestCall scope params args with
      | .ok made => (.ok (), e.add made)
      | .error f => (.error f, e)
    | none => (.ok (), e)
  | .bind env name value =>
    match e.scopes[env]? with
    | some scope => (.ok (), { e with store := e.store.bind scope name value })
    | none => (.ok (), e)

def ofOperations (ops : List Operation) : Environments :=
  ops.foldl (fun e op => (e.perform op).2) empty

theorem ofOperations_append (ops : List Operation) (op : Operation) :
    ofOperations (ops ++ [op]) = ((ofOperations ops).perform op).2 := by
  rw [ofOperations, List.foldl_append]
  rfl

end Environments

/-- The number of frames, the chains of the environments, and all bindings that were made, the latest
last. -/
structure History where
  frames : ℕ
  scopes : List Scope
  bindings : List (FrameId × String × Value)

namespace History

def empty : History := ⟨0, [], []⟩

/-- A new frame, with the chain that starts at it and the bindings that are made in it at once. -/
def addFrame (h : History) (scope : Scope) (bindings : List (String × Value)) : History :=
  ⟨h.frames + 1, h.scopes ++ [scope], h.bindings ++ bindings.map fun b => (h.frames, b)⟩

/-- Notes an operation. Parameters are bound if they are symbols, and as many as the arguments. -/
def note (h : History) : Operation → History
  | .new => h.addFrame ⟨h.frames, []⟩ []
  | .withBindings bindings => h.addFrame ⟨h.frames, []⟩ bindings
  | .child env =>
    match h.scopes[env]? with
    | some scope => h.addFrame (scope.extend h.frames) []
    | none => h
  | .clone env =>
    match h.scopes[env]? with
    | some scope => { h with scopes := h.scopes ++ [scope] }
    | none => h
  | .withParams env params args =>
    match h.scopes[env]?, params.mapM Value.symbol? with
    | some scope, some names =>
      if params.length = args.length then h.addFrame (scope.extend h.frames) (names.zip args) else h
    | _, _ => h
  | .bind env name value =>
    match h.scopes[env]? with
    | some scope => { h with bindings := h.bindings ++ [(scope.inner, name, value)] }
    | none => h

def ofOperations (ops : List Operation) : History := ops.foldl note empty

/-- A name was bound in a frame. -/
def Binds (h : History) (id : FrameId) (name : String) : Prop :=
  ∃ value, (id, name, value) ∈ h.bindings
/-- The latest binding of a name in a frame has a value. -/
def Latest (h : History) (id : FrameId) (name : String) (value : Value) : Prop :=
  ∃ earlier later, h.bindings = earlier ++ (id, name, value) :: later ∧
    ∀ v, (id, name, v) ∉ later

/-- The latest binding in the innermost frame of a chain that has one has a value. -/
def Visible (h : History) (scope : Scope) (name : String) (value : Value) : Prop :=
  ∃ inner id outer, scope.chain = inner ++ id :: outer ∧ (∀ i ∈ inner, ¬h.Binds i name) ∧
    h.Latest id name value

/-- No frame of a chain has a binding. -/
def Unbound (h : History) (scope : Scope) (name : String) : Prop :=
  ∀ id ∈ scope.chain, ¬h.Binds id name

theorem ofOperations_append (ops : List Operation) (op : Operation) :
    ofOperations (ops ++ [op]) = (ofOperations ops).note op := by
  rw [ofOperations, List.foldl_append]
  rfl

/-- The bindings of a frame, the latest last. -/
def bindingsOf (h : History) (id : FrameId) : List (String × Value) :=
  (h.bindings.filter (·.1 = id)).map Prod.snd

theorem binds_iff {h : History} {id : FrameId} {name : String} :
    h.Binds id name ↔ ∃ value, (name, value) ∈ h.bindingsOf id := by
  simp [Binds, bindingsOf]

/-- What is the latest is told from the bindings of the frame alone. -/
theorem latest_iff {h : History} {id : FrameId} {name : String} {value : Value} :
    h.Latest id name value ↔ (h.bindingsOf id).reverse.lookup name = some value := by
  have hlookup : (h.bindingsOf id).reverse.lookup name = h.bindings.reverse.findSome?
      fun b => if b.1 = id ∧ b.2.1 = name then some b.2.2 else none := by
    rw [bindingsOf, ← List.map_reverse, ← List.filter_reverse]
    induction h.bindings.reverse with
    | nil => rfl
    | cons b rest ih =>
      obtain ⟨i, n, v⟩ := b
      by_cases hi : i = id
      · by_cases hn : n = name
        · simp [hi, hn]
        · simp [hi, hn, List.lookup_cons, beq_false_of_ne (Ne.symm hn), ih]
      · simp [hi, ih]
  rw [hlookup, List.findSome?_eq_some_iff]
  constructor
  · rintro ⟨earlier, later, hbindings, hlater⟩
    refine ⟨later.reverse, (id, name, value), earlier.reverse, by simp [hbindings], by simp, ?_⟩
    rintro ⟨i, n, v⟩ hb
    rw [if_neg]
    rintro ⟨rfl, rfl⟩
    exact hlater v (List.mem_reverse.mp hb)
  · rintro ⟨later, ⟨i, n, v⟩, earlier, hbindings, hvalue, hlater⟩
    obtain ⟨⟨rfl, rfl⟩, rfl⟩ : (i = id ∧ n = name) ∧ v = value := by simpa using hvalue
    refine ⟨earlier.reverse, later.reverse, ?_, fun v hv => ?_⟩
    · simpa using congrArg List.reverse hbindings
    · simpa using hlater _ (List.mem_reverse.mp hv)

theorem bindingsOf_append (h : History) (more : List (FrameId × String × Value)) (id : FrameId) :
    bindingsOf { h with bindings := h.bindings ++ more } id =
      h.bindingsOf id ++ (more.filter (·.1 = id)).map Prod.snd := by
  simp [bindingsOf]

theorem bindingsOf_addFrame_self {h : History} (hlogged : ∀ b ∈ h.bindings, b.1 < h.frames)
    (scope : Scope) (bindings : List (String × Value)) :
    (h.addFrame scope bindings).bindingsOf h.frames = bindings := by
  have hold : h.bindings.filter (·.1 = h.frames) = [] := by
    rw [List.filter_eq_nil_iff]
    intro b hb
    simpa using (hlogged b hb).ne
  simp [bindingsOf, addFrame, hold, List.filter_map, Function.comp_def]

theorem bindingsOf_addFrame_of_ne (h : History) (scope : Scope) (bindings : List (String × Value))
    {id : FrameId} (hid : id ≠ h.frames) :
    (h.addFrame scope bindings).bindingsOf id = h.bindingsOf id := by
  simp [bindingsOf, addFrame, List.filter_map, Function.comp_def, hid.symm]

end History

/-- The history of a store has all its frames and bindings. -/
structure Environments.Logged (e : Environments) (h : History) : Prop where
  scopes : e.scopes = h.scopes
  frames : e.store.frames.size = h.frames
  lives : ∀ scope ∈ h.scopes, scope.LivesIn h.frames
  bindings : ∀ b ∈ h.bindings, b.1 < h.frames
  frame : ∀ id, e.store.frame id = .ofList (h.bindingsOf id)

namespace Environments.Logged

variable {e : Environments} {h : History}

theorem empty : Environments.empty.Logged .empty where
  scopes := rfl
  frames := rfl
  lives := by simp [History.empty]
  bindings := by simp [History.empty]
  frame id := by simp [Environments.empty, Store.empty, Store.frame, History.bindingsOf,
    History.empty, Frame.ofList]

theorem mem_scopes (hlog : e.Logged h) {env : ℕ} {scope : Scope}
    (henv : h.scopes[env]? = some scope) : scope.LivesIn h.frames :=
  hlog.lives scope (List.mem_of_getElem? henv)

theorem addFrame (hlog : e.Logged h) {scope : Scope} (hscope : scope.LivesIn (h.frames + 1))
    (bindings : List (String × Value)) :
    (e.add (scope, e.store.push (.ofList bindings))).Logged (h.addFrame scope bindings) where
  scopes := by simp [Environments.add, History.addFrame, hlog.scopes]
  frames := by simp [Environments.add, History.addFrame, hlog.frames]
  lives := by
    intro s hs
    rcases List.mem_append.mp hs with hs | hs
    · exact fun id hid => Nat.lt_succ_of_lt (hlog.lives s hs id hid)
    · rw [List.mem_singleton.mp hs]
      exact hscope
  bindings := by
    intro b hb
    rcases List.mem_append.mp hb with hb | hb
    · exact Nat.lt_succ_of_lt (hlog.bindings b hb)
    · obtain ⟨b, -, rfl⟩ := List.mem_map.mp hb
      exact Nat.lt_succ_self _
  frame id := by
    by_cases hid : id = h.frames
    · subst hid
      rw [History.bindingsOf_addFrame_self hlog.bindings, ← hlog.frames]
      exact Store.frame_push_self ..
    · rw [History.bindingsOf_addFrame_of_ne h scope bindings hid, ← hlog.frame]
      exact Store.frame_push_of_ne _ _ (hlog.frames ▸ hid)

theorem child (hlog : e.Logged h) {scope : Scope} (hscope : scope.LivesIn h.frames)
    (bindings : List (String × Value)) :
    (e.add (e.store.nest scope (.ofList bindings))).Logged
      (h.addFrame (scope.extend h.frames) bindings) := by
  rw [Store.nest, hlog.frames]
  refine hlog.addFrame (fun id hid => ?_) bindings
  rcases List.mem_cons.mp hid with rfl | hid
  · exact Nat.lt_succ_self _
  · exact Nat.lt_succ_of_lt (hscope id hid)

theorem root (hlog : e.Logged h) (bindings : List (String × Value)) :
    (e.add (e.store.root (.ofList bindings))).Logged (h.addFrame ⟨h.frames, []⟩ bindings) := by
  rw [Store.root, hlog.frames]
  refine hlog.addFrame (fun id hid => ?_) bindings
  rw [List.mem_singleton.mp hid]
  exact Nat.lt_succ_self _

theorem clone (hlog : e.Logged h) {scope : Scope} (hscope : scope.LivesIn h.frames) :
    (e.add (scope, e.store)).Logged { h with scopes := h.scopes ++ [scope] } where
  scopes := by simp [Environments.add, hlog.scopes]
  frames := hlog.frames
  lives := by
    intro s hs
    rcases List.mem_append.mp hs with hs | hs
    · exact hlog.lives s hs
    · rw [List.mem_singleton.mp hs]
      exact hscope
  bindings := hlog.bindings
  frame := hlog.frame

theorem bind (hlog : e.Logged h) {scope : Scope} (hscope : scope.LivesIn h.frames) (name : String)
    (value : Value) : { e with store := e.store.bind scope name value }.Logged
      { h with bindings := h.bindings ++ [(scope.inner, name, value)] } where
  scopes := hlog.scopes
  frames := by simp [hlog.frames]
  lives := hlog.lives
  bindings := by
    intro b hb
    rcases List.mem_append.mp hb with hb | hb
    · exact hlog.bindings b hb
    · rw [List.mem_singleton.mp hb]
      exact hscope _ List.mem_cons_self
  frame id := by
    rw [History.bindingsOf_append]
    by_cases hid : scope.inner = id
    · subst hid
      have hinner : scope.inner < e.store.frames.size :=
        hlog.frames ▸ hscope _ List.mem_cons_self
      simp [Store.frame_bind_self _ _ _ hinner, Frame.ofList_append, hlog.frame]
    · simp [Store.frame_bind_of_ne _ _ _ (Ne.symm hid), hid, hlog.frame]

theorem withParams (hlog : e.Logged h) {env : ℕ} {scope : Scope}
    (henv : h.scopes[env]? = some scope) (params args : List Value) :
    (e.perform (.withParams env params args)).2.Logged (h.note (.withParams env params args)) := by
  have he : e.scopes[env]? = some scope := by rw [hlog.scopes, henv]
  simp only [Environments.perform, History.note, he, henv, Store.nestCall]
  cases hframe : Frame.ofParams params args with
  | ok frame =>
    obtain ⟨hlength, names, hnames, rfl⟩ := Frame.ofParams_eq_ok_iff.mp hframe
    simp only [hnames, if_pos hlength]
    exact hlog.child (hlog.mem_scopes henv) _
  | error f =>
    cases hnames : params.mapM Value.symbol? with
    | none => exact hlog
    | some names =>
      by_cases hlength : params.length = args.length
      · rw [Frame.ofParams_eq_ok_iff.mpr ⟨hlength, names, hnames, rfl⟩] at hframe
        cases hframe
      · simp only [if_neg hlength]
        exact hlog

/-- Each operation is noted as it is performed. -/
theorem perform (hlog : e.Logged h) (op : Operation) : (e.perform op).2.Logged (h.note op) := by
  have hscopes (env : ℕ) : e.scopes[env]? = h.scopes[env]? := by rw [hlog.scopes]
  cases op with
  | new => exact hlog.root []
  | withBindings bindings => exact hlog.root bindings
  | child env =>
    rw [Environments.perform, History.note, hscopes]
    cases henv : h.scopes[env]? with
    | none => exact hlog
    | some scope => exact hlog.child (hlog.mem_scopes henv) []
  | clone env =>
    rw [Environments.perform, History.note, hscopes]
    cases henv : h.scopes[env]? with
    | none => exact hlog
    | some scope => exact hlog.clone (hlog.mem_scopes henv)
  | withParams env params args =>
    cases henv : h.scopes[env]? with
    | none => simpa only [Environments.perform, History.note, hscopes, henv] using hlog
    | some scope => exact hlog.withParams henv params args
  | bind env name value =>
    rw [Environments.perform, History.note, hscopes]
    cases henv : h.scopes[env]? with
    | none => exact hlog
    | some scope => exact hlog.bind (hlog.mem_scopes henv) name value

theorem ofOperations (ops : List Operation) :
    (Environments.ofOperations ops).Logged (.ofOperations ops) := by
  induction ops using List.reverseRecOn with
  | nil => exact .empty
  | append_singleton ops op ih =>
    rw [Environments.ofOperations_append, History.ofOperations_append]
    exact ih.perform op

theorem find?_frame_eq_some_iff (hlog : e.Logged h) {id : FrameId} {name : String} {value : Value} :
    (e.store.frame id).find? name = some value ↔ h.Latest id name value := by
  rw [hlog.frame, Frame.find?_ofList, History.latest_iff]

theorem find?_frame_eq_none_iff (hlog : e.Logged h) {id : FrameId} {name : String} :
    (e.store.frame id).find? name = none ↔ ¬h.Binds id name := by
  rw [hlog.frame, Frame.find?_ofList_eq_none, History.binds_iff, not_exists]

theorem find?_eq_some_iff (hlog : e.Logged h) {scope : Scope} {name : String} {value : Value} :
    e.store.find? scope name = some value ↔ h.Visible scope name value := by
  simp only [Store.find?, List.findSome?_eq_some_iff, hlog.find?_frame_eq_some_iff,
    hlog.find?_frame_eq_none_iff, History.Visible]
  constructor
  · rintro ⟨inner, id, outer, hchain, hlatest, hinner⟩
    exact ⟨inner, id, outer, hchain, hinner, hlatest⟩
  · rintro ⟨inner, id, outer, hchain, hinner, hlatest⟩
    exact ⟨inner, id, outer, hchain, hlatest, hinner⟩

theorem find?_eq_none_iff (hlog : e.Logged h) {scope : Scope} {name : String} :
    e.store.find? scope name = none ↔ h.Unbound scope name := by
  simp only [Store.find?, List.findSome?_eq_none_iff, hlog.find?_frame_eq_none_iff,
    History.Unbound]

theorem lookup_eq_error_iff (hlog : e.Logged h) {scope : Scope} {name : String} {f : Fault} :
    e.store.lookup scope name = .error f ↔ h.Unbound scope name ∧ f = .unbound name := by
  rw [← hlog.find?_eq_none_iff, Store.lookup]
  cases e.store.find? scope name <;> simp [eq_comm]

theorem mem_names_iff (hlog : e.Logged h) {scope : Scope} {name : String} :
    name ∈ e.store.names scope ↔ h.Binds scope.inner name := by
  rw [Store.names, hlog.frame, Frame.mem_names, History.binds_iff]

theorem names_sorted (hlog : e.Logged h) (scope : Scope) :
    (e.store.names scope).Pairwise (· < ·) := by
  rw [Store.names, hlog.frame]
  exact Frame.names_sorted _

theorem find?_bind_outer (hlog : e.Logged h) {env : ℕ} {outer scope : Scope}
    (henv : e.scopes[env]? = some outer) {inner rest : List FrameId} {name : String}
    (value : Value) (hchain : scope.chain = inner ++ outer.inner :: rest)
    (hinner : ∀ id ∈ inner, ¬h.Binds id name) :
    (e.perform (.bind env name value)).2.store.find? scope name = some value := by
  have hlives : outer.LivesIn h.frames := hlog.mem_scopes (by rw [← hlog.scopes, henv])
  rw [Environments.perform, henv]
  exact Store.find?_bind_outer value hchain (hlog.frames ▸ hlives _ List.mem_cons_self)
    fun id hid => hlog.find?_frame_eq_none_iff.mpr (hinner id hid)

end Environments.Logged

theorem Run.enterCall_of_error {scope : Scope} {params args : List Value} {m : Machine} {halt : Halt}
    (hfail : (enterCall scope params args m).1 = .error halt) :
    (enterCall scope params args m).2 = m := by
  unfold enterCall at *
  cases hcall : m.store.nestCall scope params args with
  | ok made => simp [hcall] at hfail
  | error f => rfl

namespace Environments

/-- What environments show is told by a history. -/
structure Follows (e : Environments) (h : History) : Prop where
  scopes : e.scopes = h.scopes
  found : ∀ scope name value,
    e.store.find? scope name = some value ↔ h.Visible scope name value
  missing : ∀ scope name, e.store.find? scope name = none ↔ h.Unbound scope name
  lookup : ∀ scope name f, e.store.lookup scope name = .error f ↔
    h.Unbound scope name ∧ f = .unbound name
  notFound : ∀ scope name f, e.store.lookup scope name = .error f → f.kind = .notFound
  names : ∀ scope name, name ∈ e.store.names scope ↔ h.Binds scope.inner name
  sorted : ∀ scope, (e.store.names scope).Pairwise (· < ·)

theorem Logged.follows {e : Environments} {h : History} (hlog : e.Logged h) : e.Follows h where
  scopes := hlog.scopes
  found _ _ _ := hlog.find?_eq_some_iff
  missing _ _ := hlog.find?_eq_none_iff
  lookup _ _ _ := hlog.lookup_eq_error_iff
  notFound _ _ _ hfail := by
    rw [(hlog.lookup_eq_error_iff.mp hfail).2]
    rfl
  names _ _ := hlog.mem_names_iff
  sorted := hlog.names_sorted

theorem perform_withParams_fails_iff {e : Environments} {env : ℕ} {scope : Scope}
    (henv : e.scopes[env]? = some scope) (params args : List Value) :
    (∃ f, (e.perform (.withParams env params args)).1 = .error f) ↔
      params.length ≠ args.length ∨ ∃ p ∈ params, p.symbol? = none := by
  rw [← Frame.ofParams_fails_iff]
  simp only [perform, henv, Store.nestCall]
  cases Frame.ofParams params args <;> simp [Except.map]

theorem perform_withParams_of_error {e : Environments} {env : ℕ} {params args : List Value}
    {f : Fault} (hfail : (e.perform (.withParams env params args)).1 = .error f) :
    (e.perform (.withParams env params args)).2 = e := by
  cases henv : e.scopes[env]? with
  | none => simp only [perform, henv]
  | some scope =>
    simp only [perform, henv] at hfail ⊢
    cases hcall : e.store.nestCall scope params args with
    | ok made => simp [hcall] at hfail
    | error g => rfl

/-- Environments are lexical frames. Whatever was done, a name has the value of the latest binding in
the innermost frame of the chain that ever had one, through each clone; the names of a frame are those
ever bound in it, in order. Parameters that cannot be bound leave all frames as they were. A binding in
an outer frame is seen from inside, although the inner frame was there before it. -/
theorem ofOperations_lexical (ops : List Operation) :
    (ofOperations ops).Follows (.ofOperations ops) ∧
      (∀ env scope params args, (ofOperations ops).scopes[env]? = some scope →
        ((∃ f, ((ofOperations ops).perform (.withParams env params args)).1 = .error f) ↔
          params.length ≠ args.length ∨ ∃ p ∈ params, p.symbol? = none)) ∧
      (∀ env params args f,
        ((ofOperations ops).perform (.withParams env params args)).1 = .error f →
          ofOperations (ops ++ [.withParams env params args]) = ofOperations ops) ∧
      (∀ scope params args (m : Machine) halt, (Run.enterCall scope params args m).1 = .error halt →
        (Run.enterCall scope params args m).2 = m) ∧
      ∀ env outer scope inner rest name value, (ofOperations ops).scopes[env]? = some outer →
        scope.chain = inner ++ outer.inner :: rest →
        (∀ id ∈ inner, ¬(History.ofOperations ops).Binds id name) →
          (ofOperations (ops ++ [.bind env name value])).store.find? scope name = some value := by
  have hlog := Logged.ofOperations ops
  refine ⟨hlog.follows, ?_, ?_, fun _ _ _ _ _ hfail => Run.enterCall_of_error hfail, ?_⟩
  · intro env scope params args henv
    exact perform_withParams_fails_iff henv params args
  · intro env params args f hfail
    rw [ofOperations_append, perform_withParams_of_error hfail]
  · intro env outer scope inner rest name value henv hchain hinner
    rw [ofOperations_append]
    exact hlog.find?_bind_outer henv value hchain hinner

/-- A name is bound in an outer frame and, through a clone, in an inner one; then a parameter is given
twice, and once without an argument. -/
theorem ofOperations_lexical_call :
    let ops : List Operation := [.new, .bind 0 "x" (.int 1), .child 0, .clone 1,
      .bind 2 "x" (.int 2), .withParams 1 [.symbol "a", .symbol "a"] [.int 4, .int 5]]
    (ofOperations ops).scopes = [⟨0, []⟩, ⟨1, [0]⟩, ⟨1, [0]⟩, ⟨2, [1, 0]⟩] ∧
      (ofOperations ops).store.find? ⟨2, [1, 0]⟩ "x" = some (.int 2) ∧
      (ofOperations ops).store.find? ⟨2, [1, 0]⟩ "a" = some (.int 5) ∧
      (ofOperations ops).store.lookup ⟨2, [1, 0]⟩ "y" = .error (.unbound "y") ∧
      ofOperations (ops ++ [.withParams 3 [.symbol "a"] []]) = ofOperations ops ∧
      (ofOperations (ops ++ [.bind 0 "y" (.int 3)])).store.find? ⟨2, [1, 0]⟩ "y" =
        some (.int 3) := by
  intro ops
  let bindings : List (FrameId × String × Value) :=
    [(0, "x", .int 1), (1, "x", .int 2), (2, "a", .int 4), (2, "a", .int 5)]
  have hhistory : History.ofOperations ops = ⟨3, [⟨0, []⟩, ⟨1, [0]⟩, ⟨1, [0]⟩, ⟨2, [1, 0]⟩],
    bindings⟩ := rfl
  obtain ⟨hfollows, hfails, hkept, -, houter⟩ := ofOperations_lexical ops
  have hy : ∀ id, ¬(History.ofOperations ops).Binds id "y" := by
    simp [hhistory, bindings, History.Binds]
  refine ⟨hfollows.scopes, (hfollows.found ..).mpr ?_, (hfollows.found ..).mpr ?_,
    (hfollows.lookup ..).mpr ⟨fun id _ => hy id, rfl⟩, ?_, ?_⟩
  · refine ⟨[2], 1, [0], rfl, ?_, [(0, "x", .int 1)], [(2, "a", .int 4), (2, "a", .int 5)], rfl, ?_⟩
    · simp [hhistory, bindings, History.Binds]
    · simp
  · refine ⟨[], 2, [1, 0], rfl, by simp, bindings.take 3, [], rfl, by simp⟩
  · obtain ⟨f, hf⟩ := (hfails 3 ⟨2, [1, 0]⟩ [.symbol "a"] [] rfl).mpr (.inl (by decide))
    exact hkept 3 _ _ f hf
  · exact houter 0 ⟨0, []⟩ ⟨2, [1, 0]⟩ [2, 1] [] "y" (.int 3) rfl rfl fun id _ => hy id

end Environments

end MatrixLisp
