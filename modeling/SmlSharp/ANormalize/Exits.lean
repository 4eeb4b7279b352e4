/-
Every site of a term keeps its exit, if it is not a call in tail position.
-/
import SmlSharp.ANormalize.Sites
import SmlSharp.Lib.StateExcept

namespace SmlSharp

namespace ANormalize

variable {τ α ℓ β γ : Type}

attribute [local simp] codeSites

/-! The order of the states of a translation. -/

structure State.Le (before after : State) : Prop where
  labels : before.nextLocalLabel ≤ after.nextLocalLabel
  cleanup : ∀ label, before.cleanupHandler = some label → after.cleanupHandler = some label

theorem State.Le.refl (state : State) : state.Le state :=
  ⟨Nat.le_refl _, fun _ hlabel => hlabel⟩

theorem State.Le.trans {first second third : State} (hfirst : first.Le second)
    (hsecond : second.Le third) : first.Le third :=
  ⟨Nat.le_trans hfirst.labels hsecond.labels,
    fun label hlabel => hsecond.cleanup label (hfirst.cleanup label hlabel)⟩

/-- The action does not give up labels. -/
def Monotone (action : M β) : Prop :=
  ∀ before value after, action before = .ok (value, after) → before.Le after

theorem monotone_pure (value : β) : Monotone (pure value) := by
  intro before result after hrun
  obtain ⟨rfl, rfl⟩ := Prod.mk.inj (stateT_pure_ok.1 hrun)
  exact .refl before

theorem monotone_bind {action : M β} {next : β → M γ} (haction : Monotone action)
    (hnext : ∀ value, Monotone (next value)) : Monotone (action >>= next) := by
  intro before result after hrun
  obtain ⟨value, middle, hfirst, hsecond⟩ := stateT_bind_ok.1 hrun
  exact (haction before value middle hfirst).trans (hnext value middle result after hsecond)

theorem monotone_generateVarId : Monotone generateVarId := by
  intro before id after hrun
  obtain ⟨rfl, rfl⟩ := Prod.mk.inj (Except.ok.inj hrun)
  exact ⟨Nat.le_refl _, fun _ hlabel => hlabel⟩

variable {before after : State} {frames : List (Frame ℓ)} {state : State} {code : Code τ α ℓ β}
  {env : Env τ α} {branches : ANExp τ α ℓ} {context : Context τ} {env2 : Env τ α}

theorem generateLocalLabel_ok {label : FunLocalLabel}
    (hrun : generateLocalLabel before = .ok (label, after)) :
    label = .generated before.nextLocalLabel ∧
      after = { before with nextLocalLabel := before.nextLocalLabel + 1 } := by
  obtain ⟨rfl, rfl⟩ := Prod.mk.inj (Except.ok.inj hrun)
  exact ⟨rfl, rfl⟩

theorem monotone_generateLocalLabel : Monotone generateLocalLabel := by
  intro before label after hrun
  obtain ⟨-, rfl⟩ := generateLocalLabel_ok hrun
  exact ⟨Nat.le_succ _, fun _ hlabel => hlabel⟩

theorem monotone_generateHandlerLabel : Monotone generateHandlerLabel := by
  intro before label after hrun
  obtain ⟨rfl, rfl⟩ := Prod.mk.inj (Except.ok.inj hrun)
  exact ⟨Nat.le_refl _, fun _ hlabel => hlabel⟩

theorem monotone_newVar (ty : τ) : Monotone (newVar ty) :=
  monotone_bind monotone_generateVarId fun _ => monotone_pure _

theorem monotone_freshVarId (id : Nat) : Monotone (freshVarId id) := by
  intro before result after hrun
  obtain ⟨state, middle, hget, hrun⟩ := stateT_bind_ok.1 hrun
  obtain ⟨rfl, rfl⟩ := Prod.mk.inj (stateT_get_ok.1 hget)
  by_cases hused : id ∈ before.usedVarIds
  · rw [if_pos hused] at hrun
    exact monotone_generateVarId _ _ _ hrun
  · rw [if_neg hused] at hrun
    obtain ⟨rfl, rfl⟩ := Prod.mk.inj (Except.ok.inj hrun)
    exact ⟨Nat.le_refl _, fun _ hlabel => hlabel⟩

theorem monotone_refreshVar (var : VarInfo τ) : Monotone (refreshVar var) :=
  monotone_bind (monotone_freshVarId var.id) fun _ => monotone_pure _

theorem monotone_addBoundVar (env : Env τ α) (var : VarInfo τ) :
    Monotone (addBoundVar env var) :=
  monotone_bind (monotone_refreshVar var) fun _ => monotone_pure _

theorem monotone_addBoundVars (env : Env τ α) (vars : List (VarInfo τ)) :
    Monotone (addBoundVars env vars) := by
  induction vars generalizing env with
  | nil => exact monotone_pure _
  | cons var vars ih =>
    refine monotone_bind (monotone_addBoundVar env var) ?_
    intro bound
    exact monotone_bind (ih bound.1) fun _ => monotone_pure _

theorem monotone_touchLoopLabel : Monotone touchLoopLabel := by
  intro before label after hrun
  obtain ⟨state, middle, hget, hrun⟩ := stateT_bind_ok.1 hrun
  obtain ⟨rfl, rfl⟩ := Prod.mk.inj (stateT_get_ok.1 hget)
  cases hloop : before.loopLabel with
  | some id =>
    rw [hloop] at hrun
    exact monotone_pure _ _ _ _ hrun
  | none =>
    rw [hloop] at hrun
    obtain ⟨id, middle, hgenerate, hrun⟩ := stateT_bind_ok.1 hrun
    obtain ⟨-, rfl⟩ := generateLocalLabel_ok hgenerate
    obtain ⟨rfl, rfl⟩ := Prod.mk.inj (Except.ok.inj hrun)
    exact ⟨Nat.le_succ _, fun _ hlabel => hlabel⟩

theorem monotone_compileVarInfo (env : Env τ α) (var : VarInfo τ) :
    Monotone (compileVarInfo env var) := by
  rw [compileVarInfo]
  cases env.varEnv var.id with
  | some value => exact monotone_pure _
  | none =>
    intro before result after hrun
    exact absurd hrun stateT_throw_ok

theorem monotone_compileInitField (env : Env τ α) (field : InitField τ α (VarInfo τ)) :
    Monotone (compileInitField env field) := by
  induction field with
  | initConst const ty => exact monotone_pure _
  | initValue var => exact monotone_bind (monotone_compileVarInfo env var) fun _ => monotone_pure _
  | initCopy srcExp fieldSize =>
    refine monotone_bind (monotone_compileVarInfo env srcExp) ?_
    intro src
    exact monotone_bind (monotone_compileVarInfo env fieldSize) fun _ => monotone_pure _
  | initIf tagExp tagOfTy ifBoxed ifUnboxed ihBoxed ihUnboxed =>
    refine monotone_bind (monotone_compileVarInfo env tagExp) ?_
    intro tag
    refine monotone_bind ihBoxed ?_
    intro boxed
    exact monotone_bind ihUnboxed fun _ => monotone_pure _

theorem monotone_mergeVarOf (context : Context τ) (resultTy : τ) :
    Monotone (mergeVarOf context resultTy) := by
  cases context with
  | tail => exact monotone_pure _
  | nontail => exact monotone_bind (monotone_newVar resultTy) fun _ => monotone_pure _
  | bind var => exact monotone_bind (monotone_refreshVar var) fun _ => monotone_pure _

/-! The sites that a procedure puts before its continuation. -/

/-- The local codes of the handlers have labels generated before the state. -/
def FramesBelow (frames : List (Frame ℓ)) (bound : Nat) : Prop :=
  ∀ frame ∈ frames, ∀ label, frame.localLabel = some label →
    ∃ id < bound, label = .generated id

theorem FramesBelow.mono {bound bound' : Nat}
    (hframes : FramesBelow frames bound) (hle : bound ≤ bound') : FramesBelow frames bound' := by
  intro frame hframe label hlabel
  obtain ⟨id, hlt, rfl⟩ := hframes frame hframe label hlabel
  exact ⟨id, Nat.lt_of_lt_of_le hlt hle, rfl⟩

theorem gotoSite_generated {id : Nat} (hframes : FramesBelow frames id)
    (loc : ℓ) : gotoSite frames (.generated id) loc = [] := by
  have hnone : frames.find? (fun frame => frame.localLabel = some (.generated id)) = none := by
    rw [List.find?_eq_none]
    intro frame hframe hlabel
    obtain ⟨id', hlt, heq⟩ := hframes frame hframe _ (of_decide_eq_true hlabel)
    obtain rfl := FunLocalLabel.generated.inj heq
    exact absurd hlt (Nat.lt_irrefl _)
  rw [gotoSite, hnone]

theorem gotoSite_source {bound : Nat}
    (hframes : FramesBelow frames bound) (id : Nat) (loc : ℓ) :
    gotoSite frames (.source id) loc = [] := by
  have hnone : frames.find? (fun frame => frame.localLabel = some (.source id)) = none := by
    rw [List.find?_eq_none]
    intro frame hframe hlabel
    obtain ⟨id', -, heq⟩ := hframes frame hframe _ (of_decide_eq_true hlabel)
    cases heq
  rw [gotoSite, hnone]

/-- The cleanup of the finished body is the one of the state, once there is one. -/
def State.Agrees (state : State) (guarded : Bool) (cleanup : Option Nat) : Prop :=
  guarded = true → ∀ label, state.cleanupHandler = some label → cleanup = some label

theorem State.Agrees.of_le {guarded : Bool} {cleanup : Option Nat}
    (hagrees : after.Agrees guarded cleanup) (hle : before.Le after) :
    before.Agrees guarded cleanup :=
  fun hguarded label hlabel => hagrees hguarded label (hle.cleanup label hlabel)

/-- In the finished body the code has the sites of the trace, and those of the
continuation if the trace continues. -/
def Places (frames : List (Frame ℓ)) (guarded : Bool) (trace : Trace ℓ) (cleanup : Option Nat)
    (nextExp code : ANExp τ α ℓ) : Prop :=
  codeSites frames ⟨guarded, cleanup⟩ code =
      (trace.sites ++ if trace.continues then codeSites frames ⟨guarded, cleanup⟩ nextExp else []) ∧
    (LabelsBound frames ⟨guarded, cleanup⟩ nextExp → LabelsBound frames ⟨guarded, cleanup⟩ code)

def ProcEmits (frames : List (Frame ℓ)) (guarded : Bool) (proc : Proc τ α ℓ) (trace : Trace ℓ)
    (state : State) : Prop :=
  ∀ nextExp before code after, state.Le before → proc nextExp before = .ok (code, after) →
    before.Le after ∧ ∀ cleanup, after.Agrees guarded cleanup →
      Places frames guarded trace cleanup nextExp code

/-- The procedure that the translation returns emits the sites of the trace. -/
def Emits (frames : List (Frame ℓ)) (guarded : Bool) (code : Code τ α ℓ β) (trace : Trace ℓ) :
    Prop :=
  ∀ before result after, FramesBelow frames before.nextLocalLabel →
    code.run before = .ok (result, after) →
      before.Le after ∧ ProcEmits frames guarded result.1 trace after

theorem procEmits_empty (frames : List (Frame ℓ)) (guarded : Bool) (state : State) :
    ProcEmits frames guarded (emptyProc : Proc τ α ℓ) .empty state := by
  intro nextExp before code after _ hrun
  obtain ⟨rfl, rfl⟩ := Prod.mk.inj (Except.ok.inj hrun)
  refine ⟨.refl before, ?_⟩
  intro cleanup _
  exact ⟨by simp [Trace.empty], id⟩

theorem ProcEmits.later {guarded : Bool} {proc : Proc τ α ℓ}
    {trace : Trace ℓ} {later : State} (hproc : ProcEmits frames guarded proc trace state)
    (hle : state.Le later) : ProcEmits frames guarded proc trace later :=
  fun nextExp before code after hbefore hrun =>
    hproc nextExp before code after (hle.trans hbefore) hrun

/-- The composition of two procedures. -/
theorem ProcEmits.comp {guarded : Bool} {proc1 proc2 : Proc τ α ℓ}
    {trace1 trace2 : Trace ℓ}
    (hproc1 : ProcEmits frames guarded proc1 trace1 state)
    (hproc2 : ProcEmits frames guarded proc2 trace2 state) :
    ProcEmits frames guarded (fun nextExp => proc2 nextExp >>= proc1) (trace1.seq trace2)
      state := by
  intro nextExp before code after hbefore hrun
  obtain ⟨middleExp, middle, hrun2, hrun1⟩ := stateT_bind_ok.1 hrun
  obtain ⟨hle2, hplaces2⟩ := hproc2 nextExp before middleExp middle hbefore hrun2
  obtain ⟨hle1, hplaces1⟩ := hproc1 middleExp middle code after (hbefore.trans hle2) hrun1
  refine ⟨hle2.trans hle1, ?_⟩
  intro cleanup hagrees
  obtain ⟨hsites2, hbound2⟩ := hplaces2 cleanup (hagrees.of_le hle1)
  obtain ⟨hsites1, hbound1⟩ := hplaces1 cleanup hagrees
  refine ⟨?_, fun hbound => hbound1 (hbound2 hbound)⟩
  rw [hsites1, hsites2]
  cases h1 : trace1.continues <;> cases h2 : trace2.continues <;> simp [Trace.seq, h1, h2]

theorem emits_pure (frames : List (Frame ℓ)) (guarded : Bool) (value : β) :
    Emits frames guarded (pure value : Code τ α ℓ β) .empty := by
  intro before result after _ hrun
  obtain ⟨rfl, rfl⟩ := Prod.mk.inj (Except.ok.inj hrun)
  exact ⟨.refl before, procEmits_empty frames guarded before⟩

theorem emits_bind {guarded : Bool}
    {next : β → Code τ α ℓ γ} {trace1 trace2 : Trace ℓ}
    (hcode : Emits frames guarded code trace1)
    (hnext : ∀ value, Emits frames guarded (next value) trace2) :
    Emits frames guarded (code >>= next) (trace1.seq trace2) := by
  intro before result after hframes hrun
  obtain ⟨⟨proc1, value⟩, middle, hrun1, hrun⟩ := stateT_bind_ok.1 hrun
  obtain ⟨⟨proc2, value2⟩, last, hrun2, hrun⟩ := stateT_bind_ok.1 hrun
  obtain ⟨rfl, rfl⟩ := Prod.mk.inj (stateT_pure_ok.1 hrun)
  obtain ⟨hle1, hproc1⟩ := hcode before _ middle hframes hrun1
  obtain ⟨hle2, hproc2⟩ := hnext value middle _ last (hframes.mono hle1.labels) hrun2
  exact ⟨hle1.trans hle2, (hproc1.later hle2).comp hproc2⟩

theorem emits_lift {guarded : Bool} {action : M β}
    (haction : Monotone action) :
    Emits frames guarded (liftM action : Code τ α ℓ β) .empty := by
  intro before result after _ hrun
  obtain ⟨value, middle, haction', hrun⟩ := stateT_bind_ok.1 hrun
  obtain ⟨rfl, rfl⟩ := Prod.mk.inj (stateT_pure_ok.1 hrun)
  exact ⟨haction before value middle haction', procEmits_empty frames guarded middle⟩

theorem emits_emit {guarded : Bool} {proc : Proc τ α ℓ}
    {trace : Trace ℓ} (hproc : ∀ state, ProcEmits frames guarded proc trace state) :
    Emits frames guarded (emit proc) trace := by
  intro before result after _ hrun
  obtain ⟨rfl, rfl⟩ := Prod.mk.inj (Except.ok.inj hrun)
  exact ⟨.refl before, hproc before⟩

/-- An instruction that ends the code. -/
theorem emits_last {guarded : Bool} {code : ANExp τ α ℓ}
    {sites : List (Site ℓ)}
    (hcode : ∀ cleanup, codeSites frames ⟨guarded, cleanup⟩ code = sites ∧
      LabelsBound frames ⟨guarded, cleanup⟩ code) :
    Emits frames guarded (last code) ⟨sites, false⟩ := by
  intro before result after _ hrun
  obtain ⟨rfl, rfl⟩ := Prod.mk.inj (Except.ok.inj hrun)
  refine ⟨.refl before, ?_⟩
  intro nextExp before code' after _ hrun
  obtain ⟨rfl, rfl⟩ := Prod.mk.inj (Except.ok.inj hrun)
  refine ⟨.refl before, ?_⟩
  intro cleanup _
  obtain ⟨hsites, hbound⟩ := hcode cleanup
  exact ⟨by simpa using hsites, fun _ => hbound⟩

/-- An instruction that raises nothing. -/
structure Silent (frames : List (Frame ℓ)) (instr : ANExp τ α ℓ → ANExp τ α ℓ) : Prop where
  sites : ∀ body nextExp, codeSites frames body (instr nextExp) = codeSites frames body nextExp
  bound : ∀ body nextExp, LabelsBound frames body (instr nextExp) = LabelsBound frames body nextExp

theorem Silent.procEmits {instr : ANExp τ α ℓ → ANExp τ α ℓ}
    (hsilent : Silent frames instr) (guarded : Bool) (state : State) :
    ProcEmits frames guarded (fun nextExp => return instr nextExp) .empty state := by
  intro nextExp before code after _ hrun
  obtain ⟨rfl, rfl⟩ := Prod.mk.inj (stateT_pure_ok.1 hrun)
  refine ⟨.refl before, ?_⟩
  intro cleanup _
  refine ⟨by simp [Trace.empty, hsilent.sites], ?_⟩
  rw [hsilent.bound]
  exact id

/-- In tail position nothing follows. -/
def contextEnd : Context τ → Trace ℓ
  | .tail => .stop
  | _ => .empty

@[simp] theorem contextEnd_nontail : contextEnd (.nontail : Context τ) = (.empty : Trace ℓ) :=
  rfl

@[simp] theorem contextEnd_bind (var : VarInfo τ) :
    contextEnd (.bind var) = (.empty : Trace ℓ) :=
  rfl

@[simp] theorem seq_contextEnd_sites (trace : Trace ℓ) (context : Context τ) :
    (trace.seq (contextEnd context)).sites = trace.sites := by
  cases context <;> simp [contextEnd, Trace.seq, Trace.stop, Trace.empty]

theorem emits_returnValue (frames : List (Frame ℓ)) (guarded : Bool) (context : Context τ)
    (value : ANValue τ α) (ty : τ) (loc : ℓ) :
    Emits frames guarded (returnValue context value ty loc) (contextEnd context) := by
  cases context with
  | tail => exact emits_last fun cleanup => ⟨rfl, trivial⟩
  | nontail => exact emits_pure frames guarded value
  | bind var => exact emits_pure frames guarded value

theorem emits_bindExp {guarded : Bool}
    {expFn : VarInfo τ → Proc τ α ℓ} {trace : Trace ℓ}
    (hproc : ∀ var state, ProcEmits frames guarded (expFn var) trace state)
    (context : Context τ) (expTy : τ) (loc : ℓ) :
    Emits frames guarded (bindExp context expFn expTy loc)
      (trace.seq (contextEnd context)) := by
  cases context with
  | tail =>
    have hreturn : ∀ var, Emits frames guarded
        (last (.anReturn (.anVar var) expTy loc) : Code τ α ℓ (ANValue τ α)) .stop :=
      fun var => emits_last fun cleanup => ⟨rfl, trivial⟩
    have hcode := emits_bind (emits_lift (τ := τ) (α := α) (monotone_newVar expTy)) fun var =>
      emits_bind (emits_emit (hproc var)) fun _ => hreturn var
    rw [Trace.empty_seq] at hcode
    exact hcode
  | nontail =>
    have hcode := emits_bind (emits_lift (τ := τ) (α := α) (monotone_newVar expTy)) fun var =>
      emits_bind (emits_emit (hproc var)) fun _ =>
        emits_pure (τ := τ) (α := α) frames guarded (ANValue.anVar (α := α) var)
    rw [Trace.empty_seq] at hcode
    exact hcode
  | bind bound =>
    have hcode := emits_bind (emits_lift (τ := τ) (α := α) (monotone_refreshVar bound)) fun var =>
      emits_bind (emits_emit (hproc var)) fun _ =>
        emits_pure (τ := τ) (α := α) frames guarded (ANValue.anVar (α := α) var)
    rw [Trace.empty_seq] at hcode
    exact hcode

theorem emits_silent {guarded : Bool}
    {instr : VarInfo τ → ANExp τ α ℓ → ANExp τ α ℓ} (hsilent : ∀ var, Silent frames (instr var))
    (context : Context τ) (expTy : τ) (loc : ℓ) :
    Emits frames guarded (bindExp context (fun var nextExp => return instr var nextExp) expTy loc)
      (contextEnd context) := by
  have hcode := emits_bindExp (fun var state => (hsilent var).procEmits guarded state) context
    expTy loc
  simpa only [Trace.empty_seq] using hcode

/-! Exits. -/

/-- The handler of the environment, the handlers around the code, whether the
body has a cleanup, and what is around the term. -/
inductive Around : Handler → List (Frame ℓ) → Bool → Guard ℓ → Prop
  | noHandler : Around .noHandler [] false .unguarded
  | cleanup : Around .cleanup [] true .cleanup
  | handler {handlerLabel : Nat} {localLabel : FunLocalLabel} {frames : List (Frame ℓ)}
      {guarded : Bool} {loc : ℓ} :
      Around (.handler handlerLabel localLabel) (⟨handlerLabel, some localLabel, loc⟩ :: frames)
        guarded (.handler loc)

/-- The instruction has the exit of its place. -/
def ExitFits (frames : List (Frame ℓ)) (guarded : Bool) (guard : Guard ℓ) (handler : Option Nat)
    (cleanup : Option Nat) : Prop :=
  (∀ kind loc, siteOf frames ⟨guarded, cleanup⟩ kind loc handler = (guard.site kind loc).sites) ∧
    LabelBound frames ⟨guarded, cleanup⟩ handler

theorem exitFits_cleanup {label : Nat} {cleanup : Option Nat} (hcleanup : cleanup = some label) :
    ExitFits ([] : List (Frame ℓ)) true .cleanup (some label) cleanup := by
  constructor
  · intro kind loc
    simp [siteOf, exitOf, Guard.site, hcleanup]
  · rintro _ ⟨⟩
    exact .inr hcleanup

theorem getHandlerLabel_fits {guarded : Bool}
    {guard : Guard ℓ} (haround : Around env.handler frames guarded guard)
    {handler : Option Nat} (hrun : getHandlerLabel env before = .ok (handler, after)) :
    before.Le after ∧ ∀ cleanup, after.Agrees guarded cleanup →
      ExitFits frames guarded guard handler cleanup := by
  rw [getHandlerLabel] at hrun
  cases hhandler : env.handler with
  | noHandler =>
    rw [hhandler] at hrun haround
    obtain ⟨rfl, rfl⟩ := Prod.mk.inj (stateT_pure_ok.1 hrun)
    cases haround
    refine ⟨.refl before, ?_⟩
    intro cleanup _
    refine ⟨fun kind loc => ?_, ?_⟩
    · simp [siteOf, Guard.site, Trace.empty]
    · rintro _ ⟨⟩
  | handler handlerLabel localLabel =>
    rw [hhandler] at hrun haround
    obtain ⟨rfl, rfl⟩ := Prod.mk.inj (stateT_pure_ok.1 hrun)
    cases haround with
    | handler =>
      refine ⟨.refl before, ?_⟩
      intro cleanup _
      constructor
      · intro kind loc
        simp [siteOf, exitOf, Guard.site]
      · rintro _ ⟨⟩
        exact .inl ⟨_, List.mem_cons_self, rfl⟩
  | cleanup =>
    rw [hhandler] at hrun haround
    cases haround
    obtain ⟨state, middle, hget, hrun⟩ := stateT_bind_ok.1 hrun
    obtain ⟨rfl, rfl⟩ := Prod.mk.inj (stateT_get_ok.1 hget)
    cases hcleanup : before.cleanupHandler with
    | some label =>
      rw [hcleanup] at hrun
      obtain ⟨rfl, rfl⟩ := Prod.mk.inj (stateT_pure_ok.1 hrun)
      refine ⟨.refl before, ?_⟩
      intro cleanup hagrees
      exact exitFits_cleanup (hagrees rfl label hcleanup)
    | none =>
      rw [hcleanup] at hrun
      obtain ⟨label, middle, hgenerate, hrun⟩ := stateT_bind_ok.1 hrun
      obtain ⟨rfl, rfl⟩ := Prod.mk.inj (Except.ok.inj hgenerate)
      obtain ⟨rfl, rfl⟩ := Prod.mk.inj (Except.ok.inj hrun)
      refine ⟨⟨Nat.le_refl _, ?_⟩, ?_⟩
      · intro label hlabel
        rw [hcleanup] at hlabel
        cases hlabel
      · intro cleanup hagrees
        exact exitFits_cleanup (hagrees rfl _ rfl)

/-- An instruction with a handler. -/
structure Handled (frames : List (Frame ℓ)) (kind : SiteKind) (loc : ℓ)
    (instr : Option Nat → ANExp τ α ℓ → ANExp τ α ℓ) : Prop where
  sites : ∀ body handler nextExp, codeSites frames body (instr handler nextExp) =
    siteOf frames body kind loc handler ++ codeSites frames body nextExp
  bound : ∀ body handler nextExp, LabelsBound frames body (instr handler nextExp) =
    (LabelBound frames body handler ∧ LabelsBound frames body nextExp)

theorem Guard.site_continues (guard : Guard ℓ) (kind : SiteKind) (loc : ℓ) :
    (guard.site kind loc).continues = true := by
  cases guard <;> rfl

theorem Handled.procEmits {guarded : Bool}
    {guard : Guard ℓ} (haround : Around env.handler frames guarded guard) {kind : SiteKind}
    {loc : ℓ} {instr : Option Nat → ANExp τ α ℓ → ANExp τ α ℓ}
    (hhandled : Handled frames kind loc instr) (state : State) :
    ProcEmits frames guarded (fun nextExp => do
      let handler ← getHandlerLabel env
      return instr handler nextExp) (guard.site kind loc) state := by
  intro nextExp before code after _ hrun
  obtain ⟨handler, middle, hhandler, hrun⟩ := stateT_bind_ok.1 hrun
  obtain ⟨rfl, rfl⟩ := Prod.mk.inj (stateT_pure_ok.1 hrun)
  obtain ⟨hle, hfits⟩ := getHandlerLabel_fits haround hhandler
  refine ⟨hle, ?_⟩
  intro cleanup hagrees
  obtain ⟨hsites, hlabel⟩ := hfits cleanup hagrees
  constructor
  · rw [hhandled.sites, hsites, guard.site_continues, if_pos rfl]
  · intro hbound
    rw [hhandled.bound]
    exact ⟨hlabel, hbound⟩

/-- An instruction that ends the code and depends on an effect. -/
theorem emits_lift_last {guarded : Bool} {action : M γ}
    {code : γ → ANExp τ α ℓ} {sites : List (Site ℓ)}
    (haction : ∀ before value after, action before = .ok (value, after) →
      before.Le after ∧ ∀ cleanup, after.Agrees guarded cleanup →
        codeSites frames ⟨guarded, cleanup⟩ (code value) = sites ∧
          LabelsBound frames ⟨guarded, cleanup⟩ (code value)) :
    Emits frames guarded (do
      let value ← (action : M γ)
      last (code value)) ⟨sites, false⟩ := by
  intro before result after _ hrun
  obtain ⟨⟨proc1, value⟩, middle, hlift, hrun⟩ := stateT_bind_ok.1 hrun
  obtain ⟨value', middle', hvalue, hlift⟩ := stateT_bind_ok.1 hlift
  obtain ⟨hpair, rfl⟩ := Prod.mk.inj (stateT_pure_ok.1 hlift)
  obtain ⟨rfl, rfl⟩ := Prod.mk.inj hpair
  obtain ⟨rfl, rfl⟩ := Prod.mk.inj (Except.ok.inj hrun)
  obtain ⟨hle, hcode⟩ := haction before value' middle' hvalue
  refine ⟨hle, ?_⟩
  intro nextExp start code' after hstart hrun
  obtain ⟨rfl, rfl⟩ := Prod.mk.inj (Except.ok.inj hrun)
  refine ⟨.refl start, ?_⟩
  intro cleanup hagrees
  obtain ⟨hsites, hbound⟩ := hcode cleanup (hagrees.of_le hstart)
  exact ⟨by simpa using hsites, fun _ => hbound⟩

theorem Guard.site_seq_stop (guard : Guard ℓ) (kind : SiteKind) (loc : ℓ) :
    (guard.site kind loc).seq .stop = ⟨(guard.site kind loc).sites, false⟩ := by
  cases guard <;> simp [Guard.site, Trace.seq, Trace.stop, Trace.empty]

theorem emits_raise {guarded : Bool}
    {guard : Guard ℓ} (haround : Around env.handler frames guarded guard)
    (argExp : ANValue τ α) (loc : ℓ) :
    Emits frames guarded
      (match env.handler with
        | .handler _ localLabel => last (.anGoto localLabel [argExp] loc)
        | _ => do
            let cleanup ← (getCleanupLabel env : M (Option Nat))
            last (.anRaise argExp cleanup loc))
      ((guard.site .raise loc).seq .stop) := by
  rw [guard.site_seq_stop]
  have hlabel : (∀ handlerLabel localLabel, env.handler ≠ .handler handlerLabel localLabel) →
      Emits frames guarded (do
        let cleanup ← (getCleanupLabel env : M (Option Nat))
        last (.anRaise argExp cleanup loc)) ⟨(guard.site .raise loc).sites, false⟩ := by
    intro hhandler
    refine emits_lift_last ?_
    intro before handler after hrun
    have hget : getHandlerLabel env before = .ok (handler, after) := by
      rw [getCleanupLabel] at hrun
      cases henv : env.handler with
      | noHandler =>
        rw [getHandlerLabel, henv]
        rwa [henv] at hrun
      | cleanup => rwa [henv] at hrun
      | handler handlerLabel localLabel => exact absurd henv (hhandler _ _)
    obtain ⟨hle, hfits⟩ := getHandlerLabel_fits haround hget
    exact ⟨hle, fun cleanup hagrees => ⟨(hfits cleanup hagrees).1 _ _, (hfits cleanup hagrees).2⟩⟩
  cases hhandler : env.handler with
  | noHandler => exact hlabel fun _ _ heq => by cases hhandler.symm.trans heq
  | cleanup => exact hlabel fun _ _ heq => by cases hhandler.symm.trans heq
  | handler handlerLabel localLabel =>
    rw [hhandler] at haround
    cases haround with
    | handler =>
      refine emits_last fun cleanup => ⟨?_, trivial⟩
      simp [gotoSite, Guard.site]

/-! The forms with branches. -/

/-- In the finished body the code has the sites. -/
def BranchSites (frames : List (Frame ℓ)) (guarded : Bool) (branches : ANExp τ α ℓ)
    (sites : List (Site ℓ)) (state : State) : Prop :=
  ∀ cleanup, state.Agrees guarded cleanup → codeSites frames ⟨guarded, cleanup⟩ branches = sites ∧
    LabelsBound frames ⟨guarded, cleanup⟩ branches

/-- The code of a branch has the sites of the branch. -/
theorem compileBranchExp_places [Builtin τ ℓ] {guarded : Bool}
    {code : Code τ α ℓ (ANValue τ α)} {trace : Trace ℓ} {mergeLabel : FunLocalLabel}
    (hcode : Emits frames guarded code trace)
    (hmerge : ∀ loc, gotoSite frames mergeLabel loc = [])
    {exp : ANExp τ α ℓ} (hframes : FramesBelow frames before.nextLocalLabel)
    (hrun : compileBranchExp mergeLabel code before = .ok (exp, after)) :
    before.Le after ∧ BranchSites frames guarded exp trace.sites after := by
  obtain ⟨⟨proc, ret⟩, middle, hcompile, hproc⟩ := stateT_bind_ok.1 hrun
  obtain ⟨hle, hemits⟩ := hcode before _ middle hframes hcompile
  obtain ⟨hle', hplaces⟩ := hemits _ middle exp after (.refl middle) hproc
  refine ⟨hle.trans hle', ?_⟩
  intro cleanup hagrees
  obtain ⟨hsites, hbound⟩ := hplaces cleanup hagrees
  refine ⟨?_, hbound trivial⟩
  rw [hsites]
  simp [hmerge]

theorem procEmits_branches {guarded : Bool}
    {sites : List (Site ℓ)}
    (hbranches : BranchSites frames guarded branches sites state) :
    ProcEmits frames guarded (fun _ => pure branches) ⟨sites, false⟩ state := by
  intro nextExp before code after hbefore hrun
  obtain ⟨rfl, rfl⟩ := Prod.mk.inj (stateT_pure_ok.1 hrun)
  refine ⟨.refl before, ?_⟩
  intro cleanup hagrees
  obtain ⟨hsites, hbound⟩ := hbranches cleanup (hagrees.of_le hbefore)
  exact ⟨by simpa using hsites, fun _ => hbound⟩

theorem procEmits_localCode {guarded : Bool}
    {sites : List (Site ℓ)}
    (hbranches : BranchSites frames guarded branches sites state) (mergeLabel : FunLocalLabel)
    (vars : List (VarInfo τ)) (loc : ℓ) :
    ProcEmits frames guarded
      (fun nextExp => return .anLocalCode mergeLabel false vars nextExp branches loc)
      ⟨sites, true⟩ state := by
  intro nextExp before code after hbefore hrun
  obtain ⟨rfl, rfl⟩ := Prod.mk.inj (stateT_pure_ok.1 hrun)
  refine ⟨.refl before, ?_⟩
  intro cleanup hagrees
  obtain ⟨hsites, hbound⟩ := hbranches cleanup (hagrees.of_le hbefore)
  refine ⟨?_, fun hnext => ⟨hbound, hnext⟩⟩
  rw [codeSites, hsites, if_pos rfl]

/-- What follows branches is placed in the local code that they jump to. -/
theorem mergeBranches_emits {guarded : Bool}
    {mergeVar : Option (VarInfo τ)} (hmergeVar : mergeVar = none ↔ context = .tail)
    {mergeLabel : FunLocalLabel} {sites : List (Site ℓ)}
    (hbranches : BranchSites frames guarded branches sites state) {resultTy : τ} {loc : ℓ}
    {result : Proc τ α ℓ × ANValue τ α}
    (hrun : (mergeBranches context mergeVar mergeLabel branches resultTy loc).run state =
      .ok (result, after)) :
    state.Le after ∧
      ProcEmits frames guarded result.1 (Trace.seq ⟨sites, true⟩ (contextEnd context)) after := by
  cases mergeVar with
  | none =>
    obtain rfl : context = .tail := hmergeVar.1 rfl
    obtain ⟨rfl, rfl⟩ := Prod.mk.inj (Except.ok.inj hrun)
    have htrace : Trace.seq ⟨sites, true⟩ (contextEnd (.tail : Context τ)) =
        (⟨sites, false⟩ : Trace ℓ) := by
      simp [Trace.seq, contextEnd, Trace.stop]
    rw [htrace]
    exact ⟨.refl state, procEmits_branches hbranches⟩
  | some var =>
    have hcontext : ∀ value : ANValue τ α, returnValue (ℓ := ℓ) context value resultTy loc =
        pure value := by
      intro value
      cases context with
      | tail => cases hmergeVar.2 rfl
      | nontail => rfl
      | bind bound => rfl
    have hend : contextEnd context = (.empty : Trace ℓ) := by
      cases context with
      | tail => cases hmergeVar.2 rfl
      | nontail => rfl
      | bind bound => rfl
    rw [mergeBranches, hcontext] at hrun
    obtain ⟨rfl, rfl⟩ := Prod.mk.inj (Except.ok.inj hrun)
    rw [hend]
    exact ⟨.refl state, (procEmits_localCode hbranches mergeLabel [var] loc).comp
      (procEmits_empty frames guarded state)⟩

theorem mergeVarOf_none {resultTy : τ}
    {mergeVar : Option (VarInfo τ)}
    (hrun : mergeVarOf context resultTy before = .ok (mergeVar, after)) :
    mergeVar = none ↔ context = .tail := by
  cases context with
  | tail =>
    obtain ⟨rfl, rfl⟩ := Prod.mk.inj (Except.ok.inj hrun)
    simp
  | nontail =>
    obtain ⟨var, middle, -, hrun⟩ := stateT_bind_ok.1 hrun
    obtain ⟨rfl, rfl⟩ := Prod.mk.inj (stateT_pure_ok.1 hrun)
    simp
  | bind bound =>
    obtain ⟨var, middle, -, hrun⟩ := stateT_bind_ok.1 hrun
    obtain ⟨rfl, rfl⟩ := Prod.mk.inj (stateT_pure_ok.1 hrun)
    simp

/-- The local codes of the branches of a switch around its instruction. -/
theorem branchSites_foldl {guarded : Bool} (loc : ℓ)
    {branches : List (FunLocalLabel × ANExp τ α ℓ)} {sitesOf : List (List (Site ℓ))}
    (hbranches : List.Forall₂ (fun branch sites =>
      BranchSites frames guarded branch.2 sites state) branches sitesOf)
    {switch : ANExp τ α ℓ} {sites : List (Site ℓ)}
    (hswitch : BranchSites frames guarded switch sites state) :
    BranchSites frames guarded
      (branches.foldl (fun nextExp branch => .anLocalCode branch.1 false [] branch.2 nextExp loc)
        switch) (sites ++ sitesOf.flatten) state := by
  induction hbranches generalizing switch sites with
  | nil => simpa using hswitch
  | @cons branch branchSites rest restSites hbranch _ ih =>
    have hlocal : BranchSites frames guarded
        (.anLocalCode branch.1 false [] branch.2 switch loc) (sites ++ branchSites) state := by
      intro cleanup hagrees
      obtain ⟨hsites, hbound⟩ := hswitch cleanup hagrees
      obtain ⟨hsites', hbound'⟩ := hbranch cleanup hagrees
      exact ⟨by rw [codeSites, hsites, hsites'], hbound, hbound'⟩
    simpa using ih hlocal

theorem BranchSites.later {guarded : Bool}
    {sites : List (Site ℓ)} {later : State}
    (hbranches : BranchSites frames guarded branches sites state) (hle : state.Le later) :
    BranchSites frames guarded branches sites later :=
  fun cleanup hagrees => hbranches cleanup (hagrees.of_le hle)

/-! The translation. -/

def Context.isTail : Context τ → Bool
  | .tail => true
  | _ => false

/-- The places of the code that is generated for a term. -/
structure Place (env : Env τ α) (context : Context τ) (frames : List (Frame ℓ))
    (guarded : Bool) (guard : Guard ℓ) : Prop where
  around : Around env.handler frames guarded guard
  /-- A handler is never around a tail position, nor a cleanup around a loop. -/
  tail : context = .tail → env.handler = .noHandler ∨ env.handler = .cleanup ∧ env.funId = none

theorem Place.nontail {env : Env τ α} {context : Context τ} {frames : List (Frame ℓ)}
    {guarded : Bool} {guard : Guard ℓ} (hplace : Place env context frames guarded guard) :
    Place env .nontail frames guarded guard :=
  ⟨hplace.around, fun htail => by cases htail⟩

theorem Place.bind {env : Env τ α} {context : Context τ} {frames : List (Frame ℓ)}
    {guarded : Bool} {guard : Guard ℓ} (hplace : Place env context frames guarded guard)
    (var : VarInfo τ) : Place env (.bind var) frames guarded guard :=
  ⟨hplace.around, fun htail => by cases htail⟩

/-- Outside of tail position the trace of the context is empty. -/
theorem Emits.value {guarded : Bool}
    {trace : Trace ℓ} (hcode : Emits frames guarded code (trace.seq .empty)) :
    Emits frames guarded code trace := by
  rwa [Trace.seq_empty] at hcode

theorem Place.bindVar
    {guarded : Bool} {guard : Guard ℓ} (hplace : Place env context frames guarded guard)
    (var : VarInfo τ) (value : ANValue τ α) :
    Place (bindVar env var value) context frames guarded guard :=
  ⟨hplace.around, hplace.tail⟩

theorem Trace.stop_seq (trace : Trace ℓ) : Trace.stop.seq trace = .stop := by
  simp [Trace.stop, Trace.seq]

theorem emits_throw {guarded : Bool} (catchLabel : Nat)
    (argExpList : List (ANValue τ α)) (loc : ℓ) :
    Emits frames guarded (last (.anGoto (.source catchLabel) argExpList loc)) .stop := by
  intro before result after hframes hrun
  obtain ⟨rfl, rfl⟩ := Prod.mk.inj (Except.ok.inj hrun)
  refine ⟨.refl before, procEmits_branches ?_⟩
  intro cleanup _
  exact ⟨gotoSite_source hframes catchLabel loc, trivial⟩

theorem addBoundVar_place
    {guarded : Bool} {guard : Guard ℓ} (hplace : Place env context frames guarded guard)
    {var var2 : VarInfo τ}
    (hrun : addBoundVar env var before = .ok ((env2, var2), after)) :
    Place env2 context frames guarded guard := by
  obtain ⟨fresh, middle, -, hrun⟩ := stateT_bind_ok.1 hrun
  obtain ⟨hpair, -⟩ := Prod.mk.inj (stateT_pure_ok.1 hrun)
  obtain ⟨rfl, -⟩ := Prod.mk.inj hpair
  exact hplace.bindVar var _

theorem addBoundVars_place
    {guarded : Bool} {guard : Guard ℓ} (hplace : Place env context frames guarded guard)
    {vars vars2 : List (VarInfo τ)}
    (hrun : addBoundVars env vars before = .ok ((env2, vars2), after)) :
    Place env2 context frames guarded guard := by
  induction vars generalizing env before after vars2 with
  | nil =>
    obtain ⟨hpair, -⟩ := Prod.mk.inj (stateT_pure_ok.1 hrun)
    obtain ⟨rfl, -⟩ := Prod.mk.inj hpair
    exact hplace
  | cons var vars ih =>
    obtain ⟨⟨env1, var1⟩, middle, hvar, hrun⟩ := stateT_bind_ok.1 hrun
    obtain ⟨⟨env3, vars3⟩, middle', hvars, hrun⟩ := stateT_bind_ok.1 hrun
    obtain ⟨hpair, -⟩ := Prod.mk.inj (stateT_pure_ok.1 hrun)
    obtain ⟨rfl, -⟩ := Prod.mk.inj hpair
    exact ih (addBoundVar_place hplace hvar) hvars

theorem addBoundVarOpt_place {guarded : Bool} {guard : Guard ℓ}
    (hplace : Place env context frames guarded guard) {var var2 : Option (VarInfo τ)}
    (hrun : addBoundVarOpt env var before = .ok ((env2, var2), after)) :
    Place env2 context frames guarded guard := by
  cases var with
  | none =>
    obtain ⟨hpair, -⟩ := Prod.mk.inj (stateT_pure_ok.1 hrun)
    obtain ⟨rfl, -⟩ := Prod.mk.inj hpair
    exact hplace
  | some var =>
    obtain ⟨⟨env1, var1⟩, middle, hvar, hrun⟩ := stateT_bind_ok.1 hrun
    obtain ⟨hpair, -⟩ := Prod.mk.inj (stateT_pure_ok.1 hrun)
    obtain ⟨rfl, -⟩ := Prod.mk.inj hpair
    exact addBoundVar_place hplace hvar

theorem Place.inHandler (env : Env τ α) (handlerLabel : Nat) (localLabel : FunLocalLabel)
    (frames : List (Frame ℓ)) (guarded : Bool) (loc : ℓ) :
    Place { env with handler := .handler handlerLabel localLabel } .nontail
      (⟨handlerLabel, some localLabel, loc⟩ :: frames) guarded (.handler loc) :=
  ⟨.handler, fun htail => by cases htail⟩

theorem getCleanupLabel_bound {guarded : Bool}
    {guard : Guard ℓ} (haround : Around env.handler frames guarded guard)
    {label : Option Nat} (hrun : getCleanupLabel env before = .ok (label, after)) :
    before.Le after ∧ ∀ cleanup, after.Agrees guarded cleanup →
      LabelBound frames ⟨guarded, cleanup⟩ label := by
  rw [getCleanupLabel] at hrun
  have hnone : ∀ handler, env.handler = handler →
      (pure none : M (Option Nat)) before = .ok (label, after) →
        before.Le after ∧ ∀ cleanup, after.Agrees guarded cleanup →
          LabelBound frames ⟨guarded, cleanup⟩ label := by
    intro handler _ hpure
    obtain ⟨rfl, rfl⟩ := Prod.mk.inj (stateT_pure_ok.1 hpure)
    refine ⟨.refl before, ?_⟩
    rintro cleanup - label ⟨⟩
  cases hhandler : env.handler with
  | noHandler =>
    rw [hhandler] at hrun
    exact hnone _ hhandler hrun
  | handler handlerLabel localLabel =>
    rw [hhandler] at hrun
    exact hnone _ hhandler hrun
  | cleanup =>
    rw [hhandler] at hrun
    obtain ⟨hle, hfits⟩ := getHandlerLabel_fits haround hrun
    exact ⟨hle, fun cleanup hagrees => (hfits cleanup hagrees).2⟩

/-- A merge label is none of the local codes of handlers. -/
theorem gotoSite_merge {label : FunLocalLabel}
    (hframes : FramesBelow frames before.nextLocalLabel)
    (hrun : generateLocalLabel before = .ok (label, after)) (loc : ℓ) :
    gotoSite frames label loc = [] := by
  obtain ⟨rfl, -⟩ := generateLocalLabel_ok hrun
  exact gotoSite_generated hframes loc

theorem Emits.of_eq {guarded : Bool}
    {trace trace' : Trace ℓ} (hcode : Emits frames guarded code trace) (heq : trace = trace') :
    Emits frames guarded code trace' :=
  heq ▸ hcode

theorem emits_returnUnit [Builtin τ ℓ] (frames : List (Frame ℓ)) (guarded : Bool)
    (context : Context τ) (loc : ℓ) :
    Emits frames guarded (returnUnit context loc : Code τ α ℓ (ANValue τ α))
      (contextEnd context) :=
  emits_returnValue frames guarded context _ _ _

/-- An instruction without a result that raises nothing. -/
theorem emits_silentUnit [Builtin τ ℓ] {guarded : Bool}
    {instr : ANExp τ α ℓ → ANExp τ α ℓ} (hsilent : Silent frames instr) (context : Context τ)
    (loc : ℓ) :
    Emits frames guarded (do
      emit fun nextExp => return instr nextExp
      returnUnit context loc) (contextEnd context) := by
  have hcode := emits_bind (emits_emit (hsilent.procEmits guarded)) fun _ =>
    emits_returnUnit (α := α) frames guarded context loc
  rwa [Trace.empty_seq] at hcode

/-- The call itself, once its operands are there. -/
theorem emits_call {guarded : Bool} {guard : Guard ℓ} (codeExp : ANValue τ α)
    (closureEnvExp : Option (ANValue τ α)) (argExpList : List (ANValue τ α)) (resultTy : τ)
    (loc : ℓ) : Place env context frames guarded guard → Emits frames guarded
      (if isSelfRecTailCall env context codeExp then do
        let id ← (touchLoopLabel : M FunLocalLabel)
        last (.anGoto id argExpList loc)
      else
        match context with
        | .tail => last (.anTailCall resultTy codeExp closureEnvExp argExpList loc)
        | _ =>
          bindExp context (fun var nextExp => do
            let handler ← getHandlerLabel env
            return .anCall var codeExp closureEnvExp argExpList handler nextExp loc)
            resultTy loc)
      ((if context.isTail then guard.tailSite loc else guard.site .call loc).seq
        (contextEnd context)) := by
  intro hplace
  have hhandled : ∀ var : VarInfo τ, Handled frames .call loc
      (fun handler nextExp => .anCall var codeExp closureEnvExp argExpList handler nextExp loc) :=
    fun var => ⟨fun _ _ _ => rfl, fun _ _ _ => rfl⟩
  have hcall := emits_bindExp (fun var state => (hhandled var).procEmits hplace.around state)
    context resultTy loc
  cases context with
  | nontail =>
    have hself : isSelfRecTailCall env .nontail codeExp = false := by
      cases hfun : env.funId <;> simp [isSelfRecTailCall, hfun]
    rw [hself]
    exact hcall
  | bind var =>
    have hself : isSelfRecTailCall env (.bind var) codeExp = false := by
      cases hfun : env.funId <;> simp [isSelfRecTailCall, hfun]
    rw [hself]
    exact hcall
  | tail =>
    obtain ⟨haround, htail⟩ := hplace
    by_cases hself : isSelfRecTailCall env .tail codeExp = true
    · rw [if_pos hself]
      have hfun : env.funId ≠ none := by
        intro hnone
        simp [isSelfRecTailCall, hnone] at hself
      have hhandler : env.handler = .noHandler := by
        rcases htail rfl with hhandler | ⟨-, hnone⟩
        · exact hhandler
        · exact absurd hnone hfun
      rw [hhandler] at haround
      cases haround
      have hgoto : ∀ before label after, touchLoopLabel before = .ok (label, after) →
          before.Le after ∧ ∀ cleanup, after.Agrees false cleanup →
            codeSites [] ⟨false, cleanup⟩ (.anGoto label argExpList loc) = [] ∧
              LabelsBound [] ⟨false, cleanup⟩ (.anGoto label argExpList loc) := by
        intro before label after hrun
        exact ⟨monotone_touchLoopLabel _ _ _ hrun, fun cleanup _ => ⟨rfl, trivial⟩⟩
      refine (emits_lift_last hgoto).of_eq ?_
      simp [Context.isTail, Guard.tailSite, contextEnd, Trace.stop]
    · rw [if_neg hself]
      rcases htail rfl with hhandler | ⟨hhandler, -⟩
      · rw [hhandler] at haround
        cases haround
        have hsites : ∀ cleanup,
            codeSites [] ⟨false, cleanup⟩
              (.anTailCall resultTy codeExp closureEnvExp argExpList loc) = [] ∧
            LabelsBound [] ⟨false, cleanup⟩
              (.anTailCall resultTy codeExp closureEnvExp argExpList loc) :=
          fun cleanup => ⟨rfl, trivial⟩
        refine (emits_last hsites).of_eq ?_
        simp [Context.isTail, Guard.tailSite, contextEnd, Trace.stop]
      · rw [hhandler] at haround
        cases haround
        have hsites : ∀ cleanup,
            codeSites [] ⟨true, cleanup⟩
              (.anTailCall resultTy codeExp closureEnvExp argExpList loc) =
                [⟨.call, loc, .none⟩] ∧
            LabelsBound [] ⟨true, cleanup⟩
              (.anTailCall resultTy codeExp closureEnvExp argExpList loc) :=
          fun cleanup => ⟨rfl, trivial⟩
        refine (emits_last hsites).of_eq ?_
        simp [Context.isTail, Guard.tailSite, contextEnd, Trace.stop, Trace.seq]

variable [Builtin τ ℓ]

mutual

theorem compileExp_emits {env : Env τ α} {context : Context τ} {frames : List (Frame ℓ)}
    {guarded : Bool} {guard : Guard ℓ} (hplace : Place env context frames guarded guard) :
    ∀ exp : NCExp τ α ℓ, Emits frames guarded (compileExp env context exp)
      ((trace guard context.isTail exp).seq (contextEnd context))
  | .ncForeignApply funExp attributes argExpList resultTy loc => by
      rw [compileExp, trace, Trace.seq_assoc, Trace.seq_assoc]
      refine emits_bind (compileExp_emits hplace.nontail funExp).value fun funValue => ?_
      refine emits_bind (compileExpList_emits hplace.nontail argExpList) fun values => ?_
      cases resultTy with
      | some retTy =>
        have hhandled : ∀ var : VarInfo τ, Handled frames .foreignApply loc
            fun handler nextExp =>
              .anForeignApply (some var) funValue values attributes handler nextExp loc :=
          fun var => ⟨fun _ _ _ => rfl, fun _ _ _ => rfl⟩
        exact emits_bindExp (fun var state => (hhandled var).procEmits hplace.around state)
          context retTy loc
      | none =>
        have hhandled : Handled frames .foreignApply loc fun handler nextExp =>
            .anForeignApply none funValue values attributes handler nextExp loc :=
          ⟨fun _ _ _ => rfl, fun _ _ _ => rfl⟩
        exact emits_bind (emits_emit fun state => hhandled.procEmits hplace.around state)
          fun _ => emits_returnUnit frames guarded context loc
  | .ncPack exp expTy loc => by
      rw [compileExp, trace]
      refine emits_bind (compileExp_emits hplace.nontail exp).value fun value => ?_
      apply emits_silent
      intro var
      exact ⟨fun _ _ => rfl, fun _ _ => rfl⟩
  | .ncExportCallback codeExp closureEnvExp instTyvars resultTy loc => by
      rw [compileExp, trace, Trace.seq_assoc]
      refine emits_bind (compileExp_emits hplace.nontail codeExp).value fun code => ?_
      refine emits_bind (compileExp_emits hplace.nontail closureEnvExp).value fun closureEnv => ?_
      apply emits_silent
      intro var
      exact ⟨fun _ _ => rfl, fun _ _ => rfl⟩
  | .ncConst const ty loc => by
      rw [compileExp, trace, Trace.empty_seq]
      exact emits_returnValue frames guarded context _ ty loc
  | .ncIntInf srcLabel loc => by
      rw [compileExp, trace, Trace.empty_seq]
      apply emits_silent
      intro var
      exact ⟨fun _ _ => rfl, fun _ _ => rfl⟩
  | .ncVar varInfo loc => by
      rw [compileExp, trace]
      refine emits_bind (emits_lift (monotone_compileVarInfo env varInfo)) fun pair => ?_
      exact emits_returnValue frames guarded context pair.1 pair.2 loc
  | .ncExVar id ty loc => by
      rw [compileExp, trace, Trace.empty_seq]
      apply emits_silent
      intro var
      exact ⟨fun _ _ => rfl, fun _ _ => rfl⟩
  | .ncUnpack exp resultTy loc => by
      rw [compileExp, trace]
      refine emits_bind (compileExp_emits hplace.nontail exp).value fun value => ?_
      apply emits_silent
      intro var
      exact ⟨fun _ _ => rfl, fun _ _ => rfl⟩
  | .ncDup srcAddr resultTy valueSize loc => by
      rw [compileExp, trace, Trace.seq_assoc]
      refine emits_bind (compileAddress_emits hplace.nontail srcAddr) fun addr => ?_
      refine emits_bind (compileExp_emits hplace.nontail valueSize).value fun size => ?_
      apply emits_silent
      intro var
      exact ⟨fun _ _ => rfl, fun _ _ => rfl⟩
  | .ncLoad srcAddr resultTy loc => by
      rw [compileExp, trace]
      refine emits_bind (compileAddress_emits hplace.nontail srcAddr) fun addr => ?_
      apply emits_silent
      intro var
      exact ⟨fun _ _ => rfl, fun _ _ => rfl⟩
  | .ncCopy srcExp dstAddr valueSize loc => by
      rw [compileExp, trace, Trace.seq_assoc, Trace.seq_assoc]
      refine emits_bind (compileExp_emits hplace.nontail srcExp).value fun src => ?_
      refine emits_bind (compileAddress_emits hplace.nontail dstAddr) fun addr => ?_
      refine emits_bind (compileExp_emits hplace.nontail valueSize).value fun size => ?_
      apply emits_silentUnit
      exact ⟨fun _ _ => rfl, fun _ _ => rfl⟩
  | .ncStore srcExp srcTy dstAddr loc => by
      rw [compileExp, trace, Trace.seq_assoc]
      refine emits_bind (compileExp_emits hplace.nontail srcExp).value fun src => ?_
      refine emits_bind (compileAddress_emits hplace.nontail dstAddr) fun addr => ?_
      apply emits_silentUnit
      exact ⟨fun _ _ => rfl, fun _ _ => rfl⟩
  | .ncPrimApply primInfo argExpList argTyList resultTy instTyList instTagList instSizeList
      loc => by
      rw [compileExp, trace, Trace.seq_assoc, Trace.seq_assoc]
      refine emits_bind (compileExpList_emits hplace.nontail argExpList) fun args => ?_
      refine emits_bind (compileExpList_emits hplace.nontail instTagList) fun tags => ?_
      refine emits_bind (compileExpList_emits hplace.nontail instSizeList) fun sizes => ?_
      apply emits_silent
      intro var
      exact ⟨fun _ _ => rfl, fun _ _ => rfl⟩
  | .ncCall codeExp closureEnvExp argExpList resultTy loc => by
      rw [compileExp, trace, Trace.seq_assoc, Trace.seq_assoc, Trace.seq_assoc]
      refine emits_bind (compileExp_emits hplace.nontail codeExp).value fun code => ?_
      refine emits_bind (compileExpOption_emits hplace.nontail closureEnvExp) fun closure => ?_
      refine emits_bind (compileExpList_emits hplace.nontail argExpList) fun args => ?_
      exact emits_call code closure args resultTy loc hplace
  | .ncLet boundVar boundExp mainExp loc => by
      rw [compileExp, trace, Trace.seq_assoc]
      refine emits_bind (compileExp_emits (hplace.bind boundVar) boundExp).value fun value => ?_
      exact compileExp_emits (hplace.bindVar boundVar value) mainExp
  | .ncRecord fieldList recordTy isMutable clearPad allocSizeExp bitmaps loc => by
      rw [compileExp, trace, Trace.seq_assoc, Trace.seq_assoc]
      refine emits_bind (compileFieldList_emits hplace.nontail fieldList) fun fields => ?_
      refine emits_bind (compileExp_emits hplace.nontail allocSizeExp).value fun size => ?_
      refine emits_bind (compileBitmapList_emits hplace.nontail bitmaps) fun maps => ?_
      apply emits_silent
      intro var
      exact ⟨fun _ _ => rfl, fun _ _ => rfl⟩
  | .ncModify recordExp recordTy indexExp valueExp valueTy loc => by
      rw [compileExp, trace, Trace.seq_assoc]
      refine emits_bind (compileExp_emits hplace.nontail recordExp).value fun record => ?_
      refine emits_bind (compileExp_emits hplace.nontail indexExp).value fun index => ?_
      rw [← (contextEnd context).empty_seq]
      refine emits_bind (emits_lift (monotone_compileInitField env valueExp)) fun field => ?_
      apply emits_silent
      intro var
      exact ⟨fun _ _ => rfl, fun _ _ => rfl⟩
  | .ncCast exp expTy targetTy .bitCast loc => by
      rw [compileExp, trace]
      refine emits_bind (compileExp_emits hplace.nontail exp).value fun value => ?_
      cases toConst value with
      | some const => exact emits_returnValue frames guarded context _ targetTy loc
      | none =>
        apply emits_silent
        intro var
        exact ⟨fun _ _ => rfl, fun _ _ => rfl⟩
  | .ncCast exp expTy targetTy .typeCast loc => by
      rw [compileExp, trace]
      refine emits_bind (compileExp_emits hplace.nontail exp).value fun value => ?_
      exact emits_returnValue frames guarded context _ targetTy loc
  | .ncExportVar id ty valueExp loc => by
      rw [compileExp, trace]
      refine emits_bind (compileExp_emits hplace.nontail valueExp).value fun value => ?_
      apply emits_silentUnit
      exact ⟨fun _ _ => rfl, fun _ _ => rfl⟩
  | .ncRaise argExp resultTy loc => by
      rw [compileExp, trace, Trace.seq_assoc, Trace.seq_assoc, Trace.stop_seq]
      refine emits_bind (compileExp_emits hplace.nontail argExp).value fun value => ?_
      exact emits_raise hplace.around value loc
  | .ncThrow catchLabel argExpList resultTy loc => by
      rw [compileExp, trace, Trace.seq_assoc, Trace.stop_seq]
      refine emits_bind (compileExpList_emits hplace.nontail argExpList) fun values => ?_
      exact emits_throw catchLabel values loc
  | .ncHandle tryExp exnVar handlerExp resultTy loc => by
      rw [compileExp, trace]
      intro before result after hframes hrun
      obtain ⟨resultVar, state1, hresultVar, hrun⟩ := stateT_bind_ok.1 hrun
      obtain ⟨mergeLabel, state2, hmergeLabel, hrun⟩ := stateT_bind_ok.1 hrun
      obtain ⟨handlerLabel, state3, hhandlerLabel, hrun⟩ := stateT_bind_ok.1 hrun
      obtain ⟨localLabel, state4, hlocalLabel, hrun⟩ := stateT_bind_ok.1 hrun
      obtain ⟨tryCode, state5, htryCode, hrun⟩ := stateT_bind_ok.1 hrun
      obtain ⟨⟨env2, exnVar2⟩, state6, hexnVar, hrun⟩ := stateT_bind_ok.1 hrun
      obtain ⟨handlerCode, state7, hhandlerCode, hrun⟩ := stateT_bind_ok.1 hrun
      have hle1 := monotone_newVar _ _ _ _ hresultVar
      have hle2 := monotone_generateLocalLabel _ _ _ hmergeLabel
      have hle3 := monotone_generateHandlerLabel _ _ _ hhandlerLabel
      have hle4 := monotone_generateLocalLabel _ _ _ hlocalLabel
      have hle6 := monotone_addBoundVar _ _ _ _ _ hexnVar
      have hframes1 := hframes.mono hle1.labels
      have hframes3 := hframes1.mono (hle2.trans hle3).labels
      have hframes4 := hframes3.mono hle4.labels
      have hgoto := gotoSite_merge hframes1 hmergeLabel
      have hgotoLocal := gotoSite_merge hframes3 hlocalLabel
      -- the merge label is older than the local code of the handler
      obtain ⟨hmerge, hmergeState⟩ := generateLocalLabel_ok hmergeLabel
      obtain ⟨hlocal, hlocalState⟩ := generateLocalLabel_ok hlocalLabel
      have hlt : state1.nextLocalLabel < state3.nextLocalLabel := by
        have hlabels := hle3.labels
        rw [hmergeState] at hlabels
        exact hlabels
      have hgotoTry : ∀ gotoLoc, gotoSite (⟨handlerLabel, some localLabel, loc⟩ :: frames)
          mergeLabel gotoLoc = [] := by
        intro gotoLoc
        rw [hmerge, hlocal]
        have hne : ¬ state3.nextLocalLabel = state1.nextLocalLabel := Nat.ne_of_gt hlt
        have hframe := gotoSite_generated hframes1 gotoLoc
        simpa [gotoSite, hne] using hframe
      have hframesTry : FramesBelow (⟨handlerLabel, some localLabel, loc⟩ :: frames)
          state4.nextLocalLabel := by
        intro frame hframe label hlabel
        rcases List.mem_cons.1 hframe with rfl | hframe
        · refine ⟨state3.nextLocalLabel, ?_, ?_⟩
          · rw [hlocalState]
            exact Nat.lt_succ_self _
          · exact (Option.some.inj hlabel).symm.trans hlocal
        · exact hframes4 frame hframe label hlabel
      obtain ⟨hle5, htry⟩ := compileBranchExp_places
        (compileExp_emits (Place.inHandler env handlerLabel localLabel frames guarded loc)
          tryExp).value hgotoTry hframesTry htryCode
      obtain ⟨hle7, hhandlerSites⟩ := compileBranchExp_places
        (compileExp_emits (addBoundVar_place hplace hexnVar) handlerExp) hgoto
        (hframes4.mono (hle5.trans hle6).labels) hhandlerCode
      have hle : before.Le state7 :=
        hle1.trans (hle2.trans (hle3.trans (hle4.trans (hle5.trans (hle6.trans hle7)))))
      have hemits : ∀ state, state7.Le state → ProcEmits frames guarded (fun nextExp => do
          let cleanup ← getCleanupLabel env
          return .anLocalCode mergeLabel false [resultVar] nextExp
            (.anLocalCode localLabel false [exnVar2] handlerCode
              (.anHandler tryCode handlerLabel exnVar2
                (.anGoto localLabel [.anVar exnVar2] loc) cleanup loc) loc) loc)
          ⟨(trace (.handler loc) false tryExp).sites ++
            (trace guard context.isTail handlerExp).sites, true⟩ state := by
        intro state hstate nextExp start code after hstart hproc
        obtain ⟨cleanupLabel, middle, hcleanup, hproc⟩ := stateT_bind_ok.1 hproc
        obtain ⟨rfl, rfl⟩ := Prod.mk.inj (stateT_pure_ok.1 hproc)
        obtain ⟨hleCleanup, hlabel⟩ := getCleanupLabel_bound hplace.around hcleanup
        refine ⟨hleCleanup, ?_⟩
        intro cleanup hagrees
        have hagrees7 := hagrees.of_le (hstate.trans (hstart.trans hleCleanup))
        obtain ⟨hsites, hbound⟩ := htry cleanup (hagrees7.of_le (hle6.trans hle7))
        obtain ⟨hsites', hbound'⟩ := hhandlerSites cleanup hagrees7
        rw [seq_contextEnd_sites] at hsites'
        refine ⟨?_, fun hnext => ⟨⟨⟨hlabel cleanup hagrees, hbound, trivial⟩, hbound'⟩, hnext⟩⟩
        simp [gotoLabel, hsites, hsites', hgotoLocal, Context.isTail]
      obtain ⟨⟨proc1, done⟩, state8, hemit, hrun⟩ := stateT_bind_ok.1 hrun
      obtain ⟨⟨proc2, ret⟩, state9, hreturn, hrun⟩ := stateT_bind_ok.1 hrun
      obtain ⟨rfl, rfl⟩ := Prod.mk.inj (stateT_pure_ok.1 hrun)
      obtain ⟨hpair, rfl⟩ := Prod.mk.inj (stateT_pure_ok.1 hemit)
      obtain ⟨rfl, -⟩ := Prod.mk.inj hpair
      obtain ⟨hle9, hreturned⟩ := emits_returnValue frames guarded context _ resultTy loc state7 _
        state9 (hframes.mono hle.labels) hreturn
      exact ⟨hle.trans hle9, (hemits state9 hle9).comp hreturned⟩
  | .ncSwitch switchExp expTy branches defaultExp resultTy loc => by
      rw [compileExp, trace]
      intro before result after hframes hrun
      obtain ⟨⟨proc1, switchValue⟩, state1, hswitchExp, hrun⟩ := stateT_bind_ok.1 hrun
      obtain ⟨mergeVar, state2, hmergeVar, hrun⟩ := stateT_bind_ok.1 hrun
      obtain ⟨mergeLabel, state3, hmergeLabel, hrun⟩ := stateT_bind_ok.1 hrun
      obtain ⟨branchCodes, state4, hbranchCodes, hrun⟩ := stateT_bind_ok.1 hrun
      obtain ⟨defaultLabel, state5, hdefaultLabel, hrun⟩ := stateT_bind_ok.1 hrun
      obtain ⟨defaultCode, state6, hdefaultCode, hrun⟩ := stateT_bind_ok.1 hrun
      obtain ⟨switch, state7, hswitch, hrun⟩ := stateT_bind_ok.1 hrun
      obtain ⟨hle1, hswitchValue⟩ :=
        (compileExp_emits hplace.nontail switchExp).value before _ state1 hframes hswitchExp
      have hle2 := monotone_mergeVarOf _ _ _ _ _ hmergeVar
      have hle3 := monotone_generateLocalLabel _ _ _ hmergeLabel
      have hframes2 := hframes.mono (hle1.trans hle2).labels
      have hframes3 := hframes2.mono hle3.labels
      have hgoto := gotoSite_merge hframes2 hmergeLabel
      obtain ⟨hle4, sitesOf, hbranches, hflatten⟩ :=
        compileBranches_sites hplace branches hgoto hframes3 hbranchCodes
      have hle5 := monotone_generateLocalLabel _ _ _ hdefaultLabel
      obtain ⟨hle6, hdefault⟩ := compileBranchExp_places (compileExp_emits hplace defaultExp)
        hgoto (hframes3.mono (hle4.trans hle5).labels) hdefaultCode
      obtain ⟨hle7, hplaces⟩ := hswitchValue _ _ _ _
        (hle2.trans (hle3.trans (hle4.trans (hle5.trans hle6)))) hswitch
      have hswitchSites : BranchSites frames guarded switch (trace guard false switchExp).sites
          state7 := by
        intro cleanup hagrees
        obtain ⟨hsites, hbound⟩ := hplaces cleanup hagrees
        refine ⟨?_, hbound trivial⟩
        rw [codeSites, ite_self, List.append_nil] at hsites
        exact hsites
      have hall : List.Forall₂ (fun branch sites =>
          BranchSites frames guarded branch.2 sites state7)
          ((defaultLabel, defaultCode) :: (branchCodes.map Prod.snd).reverse)
          ((trace guard context.isTail defaultExp).sites :: sitesOf.reverse) := by
        refine .cons ?_ ?_
        · have hdefault' := hdefault.later hle7
          rwa [seq_contextEnd_sites] at hdefault'
        · rw [List.forall₂_reverse_iff, List.forall₂_map_left_iff]
          exact hbranches.imp fun _ _ hbranch =>
            hbranch.later (hle5.trans (hle6.trans hle7))
      have hcode := branchSites_foldl loc hall hswitchSites
      rw [List.flatten_cons, hflatten, ← List.append_assoc] at hcode
      obtain ⟨hle8, hemits⟩ := mergeBranches_emits (mergeVarOf_none hmergeVar) hcode hrun
      exact ⟨hle1.trans (hle2.trans (hle3.trans (hle4.trans (hle5.trans (hle6.trans
        (hle7.trans hle8)))))), hemits⟩
  | .ncCatch catchLabel argVarList catchExp tryExp resultTy loc => by
      rw [compileExp, trace]
      intro before result after hframes hrun
      obtain ⟨mergeVar, state1, hmergeVar, hrun⟩ := stateT_bind_ok.1 hrun
      obtain ⟨mergeLabel, state2, hmergeLabel, hrun⟩ := stateT_bind_ok.1 hrun
      obtain ⟨⟨env2, vars⟩, state3, hvars, hrun⟩ := stateT_bind_ok.1 hrun
      obtain ⟨catchCode, state4, hcatchCode, hrun⟩ := stateT_bind_ok.1 hrun
      obtain ⟨mainCode, state5, hmainCode, hrun⟩ := stateT_bind_ok.1 hrun
      have hle1 := monotone_mergeVarOf _ _ _ _ _ hmergeVar
      have hle2 := monotone_generateLocalLabel _ _ _ hmergeLabel
      have hle3 := monotone_addBoundVars _ _ _ _ _ hvars
      have hframes1 := hframes.mono hle1.labels
      have hframes3 := hframes1.mono (hle2.trans hle3).labels
      have hgoto := gotoSite_merge hframes1 hmergeLabel
      obtain ⟨hle4, hcatch⟩ := compileBranchExp_places
        (compileExp_emits (addBoundVars_place hplace hvars) catchExp) hgoto hframes3 hcatchCode
      obtain ⟨hle5, hmain⟩ := compileBranchExp_places (compileExp_emits hplace tryExp) hgoto
        (hframes3.mono hle4.labels) hmainCode
      have hbranches : BranchSites frames guarded
          (.anLocalCode (.source catchLabel) false vars catchCode mainCode loc)
          ((trace guard context.isTail tryExp).sites ++
            (trace guard context.isTail catchExp).sites) state5 := by
        intro cleanup hagrees
        obtain ⟨hsites, hbound⟩ := hmain cleanup hagrees
        obtain ⟨hsites', hbound'⟩ := hcatch.later hle5 cleanup hagrees
        rw [seq_contextEnd_sites] at hsites hsites'
        exact ⟨by rw [codeSites, hsites, hsites'], hbound, hbound'⟩
      obtain ⟨hle6, hemits⟩ := mergeBranches_emits (mergeVarOf_none hmergeVar) hbranches hrun
      exact ⟨hle1.trans (hle2.trans (hle3.trans (hle4.trans (hle5.trans hle6)))), hemits⟩

theorem compileExpList_emits {env : Env τ α} {frames : List (Frame ℓ)} {guarded : Bool}
    {guard : Guard ℓ} (hplace : Place env .nontail frames guarded guard) :
    ∀ exps : List (NCExp τ α ℓ), Emits frames guarded (compileExpList env exps)
      (traceList guard exps)
  | [] => emits_pure frames guarded []
  | exp :: exps => by
      rw [compileExpList, traceList]
      refine emits_bind (compileExp_emits hplace exp).value fun value => ?_
      exact (emits_bind (compileExpList_emits hplace exps)
        fun values => emits_pure frames guarded (value :: values)).value

theorem compileExpOption_emits {env : Env τ α} {frames : List (Frame ℓ)} {guarded : Bool}
    {guard : Guard ℓ} (hplace : Place env .nontail frames guarded guard) :
    ∀ exp : Option (NCExp τ α ℓ), Emits frames guarded (compileExpOption env exp)
      (traceOption guard exp)
  | none => emits_pure frames guarded none
  | some exp => by
      rw [compileExpOption, traceOption]
      exact (emits_bind (compileExp_emits hplace exp).value
        fun value => emits_pure frames guarded (some value)).value

theorem compileAddress_emits {env : Env τ α} {frames : List (Frame ℓ)} {guarded : Bool}
    {guard : Guard ℓ} (hplace : Place env .nontail frames guarded guard) :
    ∀ address : NCAddress τ α ℓ, Emits frames guarded (compileAddress env address)
      (traceAddress guard address)
  | .naPtr ptrExp => by
      rw [compileAddress, traceAddress]
      exact (emits_bind (compileExp_emits hplace ptrExp).value
        fun value => emits_pure frames guarded (ANAddress.aaPtr value)).value
  | .naRecordField recordExp fieldIndex => by
      rw [compileAddress, traceAddress]
      refine emits_bind (compileExp_emits hplace recordExp).value fun record => ?_
      exact (emits_bind (compileExp_emits hplace fieldIndex).value
        fun index => emits_pure frames guarded (ANAddress.aaRecordField record index)).value
  | .naArrayElem arrayExp elemSize elemIndex => by
      rw [compileAddress, traceAddress]
      refine emits_bind (compileExp_emits hplace arrayExp).value fun array => ?_
      refine emits_bind (compileExp_emits hplace elemSize).value fun size => ?_
      exact (emits_bind (compileExp_emits hplace elemIndex).value
        fun index => emits_pure frames guarded (ANAddress.aaArrayElem array size index)).value

theorem compileField_emits {env : Env τ α} {frames : List (Frame ℓ)} {guarded : Bool}
    {guard : Guard ℓ} (hplace : Place env .nontail frames guarded guard) :
    ∀ field : NCField τ α ℓ, Emits frames guarded (compileField env field)
      (traceField guard field)
  | .mk fieldExp fieldTy fieldIndex => by
      rw [compileField, traceField, ← (trace guard false fieldIndex).empty_seq]
      refine emits_bind (emits_lift (monotone_compileInitField env fieldExp)) fun value => ?_
      exact (emits_bind (compileExp_emits hplace fieldIndex).value
        fun index => emits_pure frames guarded (ANField.mk value fieldTy index)).value

theorem compileFieldList_emits {env : Env τ α} {frames : List (Frame ℓ)} {guarded : Bool}
    {guard : Guard ℓ} (hplace : Place env .nontail frames guarded guard) :
    ∀ fields : List (NCField τ α ℓ), Emits frames guarded (compileFieldList env fields)
      (traceFieldList guard fields)
  | [] => emits_pure frames guarded []
  | field :: fields => by
      rw [compileFieldList, traceFieldList]
      refine emits_bind (compileField_emits hplace field) fun value => ?_
      exact (emits_bind (compileFieldList_emits hplace fields)
        fun values => emits_pure frames guarded (value :: values)).value

theorem compileBitmap_emits {env : Env τ α} {frames : List (Frame ℓ)} {guarded : Bool}
    {guard : Guard ℓ} (hplace : Place env .nontail frames guarded guard) :
    ∀ bitmap : NCBitmap τ α ℓ, Emits frames guarded (compileBitmap env bitmap)
      (traceBitmap guard bitmap)
  | .mk bitmapIndex bitmapExp => by
      rw [compileBitmap, traceBitmap]
      refine emits_bind (compileExp_emits hplace bitmapIndex).value fun index => ?_
      exact (emits_bind (compileExp_emits hplace bitmapExp).value
        fun bits => emits_pure frames guarded (ANBitmap.mk index bits)).value

theorem compileBitmapList_emits {env : Env τ α} {frames : List (Frame ℓ)} {guarded : Bool}
    {guard : Guard ℓ} (hplace : Place env .nontail frames guarded guard) :
    ∀ bitmaps : List (NCBitmap τ α ℓ), Emits frames guarded (compileBitmapList env bitmaps)
      (traceBitmapList guard bitmaps)
  | [] => emits_pure frames guarded []
  | bitmap :: bitmaps => by
      rw [compileBitmapList, traceBitmapList]
      refine emits_bind (compileBitmap_emits hplace bitmap) fun value => ?_
      exact (emits_bind (compileBitmapList_emits hplace bitmaps)
        fun values => emits_pure frames guarded (value :: values)).value

theorem compileBranch_sites {env : Env τ α} {context : Context τ} {frames : List (Frame ℓ)}
    {guarded : Bool} {guard : Guard ℓ} (hplace : Place env context frames guarded guard) :
    ∀ (branch : NCBranch τ α ℓ) {mergeLabel : FunLocalLabel} {before after : State}
      {code : NCConst τ α × FunLocalLabel × ANExp τ α ℓ},
      (∀ loc, gotoSite frames mergeLabel loc = []) → FramesBelow frames before.nextLocalLabel →
        compileBranch env context mergeLabel branch before = .ok (code, after) →
          before.Le after ∧ BranchSites frames guarded code.2.2
            (traceBranch guard context.isTail branch) after
  | .mk constant branchExp, mergeLabel, before, after, code, hgoto, hframes, hrun => by
      rw [compileBranch] at hrun
      obtain ⟨label, state1, hlabel, hrun⟩ := stateT_bind_ok.1 hrun
      obtain ⟨branchCode, state2, hbranchCode, hrun⟩ := stateT_bind_ok.1 hrun
      obtain ⟨rfl, rfl⟩ := Prod.mk.inj (stateT_pure_ok.1 hrun)
      have hle1 := monotone_generateLocalLabel _ _ _ hlabel
      obtain ⟨hle2, hbranch⟩ := compileBranchExp_places (compileExp_emits hplace branchExp) hgoto
        (hframes.mono hle1.labels) hbranchCode
      rw [seq_contextEnd_sites] at hbranch
      exact ⟨hle1.trans hle2, hbranch⟩

theorem compileBranches_sites {env : Env τ α} {context : Context τ} {frames : List (Frame ℓ)}
    {guarded : Bool} {guard : Guard ℓ} (hplace : Place env context frames guarded guard) :
    ∀ (branches : List (NCBranch τ α ℓ)) {mergeLabel : FunLocalLabel} {before after : State}
      {codes : List (NCConst τ α × FunLocalLabel × ANExp τ α ℓ)},
      (∀ loc, gotoSite frames mergeLabel loc = []) → FramesBelow frames before.nextLocalLabel →
        compileBranches env context mergeLabel branches before = .ok (codes, after) →
          before.Le after ∧ ∃ sitesOf : List (List (Site ℓ)),
            List.Forall₂ (fun code sites => BranchSites frames guarded code.2.2 sites after)
              codes sitesOf ∧
            sitesOf.reverse.flatten = traceBranches guard context.isTail branches
  | [], mergeLabel, before, after, codes, hgoto, hframes, hrun => by
      rw [compileBranches] at hrun
      obtain ⟨rfl, rfl⟩ := Prod.mk.inj (stateT_pure_ok.1 hrun)
      exact ⟨.refl before, [], .nil, rfl⟩
  | branch :: branches, mergeLabel, before, after, codes, hgoto, hframes, hrun => by
      rw [compileBranches] at hrun
      obtain ⟨code, state1, hcode, hrun⟩ := stateT_bind_ok.1 hrun
      obtain ⟨rest, state2, hrest, hrun⟩ := stateT_bind_ok.1 hrun
      obtain ⟨rfl, rfl⟩ := Prod.mk.inj (stateT_pure_ok.1 hrun)
      obtain ⟨hle1, hbranch⟩ := compileBranch_sites hplace branch hgoto hframes hcode
      obtain ⟨hle2, sitesOf, hbranches, hflatten⟩ :=
        compileBranches_sites hplace branches hgoto (hframes.mono hle1.labels) hrest
      refine ⟨hle1.trans hle2, _ :: sitesOf, .cons (hbranch.later hle2) hbranches, ?_⟩
      rw [traceBranches, List.reverse_cons, List.flatten_append, hflatten, List.flatten_singleton]

end

end ANormalize

end SmlSharp
