/-
The exits of a whole program survive the translation exactly if no callback
function makes a call in tail position.
-/
import SmlSharp.ANormalize.Exits
import SmlSharp.Lib.Except

namespace SmlSharp

namespace ANormalize

variable {τ α ℓ : Type}

/-! What tail calls change. -/

/-- Two lists of sites that are the same up to tail calls, and the same if there
are none. -/
structure DifferBy (tailed plain : List (Site ℓ)) (tailCall : Bool) : Prop where
  length : tailed.length = plain.length
  eq_iff : tailed = plain ↔ tailCall = false

theorem DifferBy.refl (sites : List (Site ℓ)) : DifferBy sites sites false :=
  ⟨rfl, by simp⟩

theorem DifferBy.append {tailed plain tailed' plain' : List (Site ℓ)} {tailCall tailCall' : Bool}
    (hfirst : DifferBy tailed plain tailCall) (hsecond : DifferBy tailed' plain' tailCall') :
    DifferBy (tailed ++ tailed') (plain ++ plain') (tailCall || tailCall') := by
  constructor
  · rw [List.length_append, List.length_append, hfirst.length, hsecond.length]
  · constructor
    · intro heq
      obtain ⟨hleft, hright⟩ := List.append_inj heq hfirst.length
      rw [hfirst.eq_iff.1 hleft, hsecond.eq_iff.1 hright]
      rfl
    · intro hnone
      rw [Bool.or_eq_false_iff] at hnone
      rw [hfirst.eq_iff.2 hnone.1, hsecond.eq_iff.2 hnone.2]

theorem DifferBy.prepend (sites : List (Site ℓ)) {tailed plain : List (Site ℓ)} {tailCall : Bool}
    (hdiffer : DifferBy tailed plain tailCall) :
    DifferBy (sites ++ tailed) (sites ++ plain) tailCall := by
  simpa using (DifferBy.refl sites).append hdiffer

/-- The sites after a trace count if the trace continues. -/
theorem DifferBy.seq (first : Trace ℓ) {tailed plain : Trace ℓ} {tailCall : Bool}
    (hdiffer : DifferBy tailed.sites plain.sites tailCall) :
    DifferBy (first.seq tailed).sites (first.seq plain).sites (first.continues && tailCall) := by
  obtain ⟨sites, continues⟩ := first
  cases continues with
  | true => exact hdiffer.prepend sites
  | false => exact .refl _

theorem seq_continues (first second : Trace ℓ) :
    (first.seq second).continues = (first.continues && second.continues) :=
  rfl

mutual

/-- Whether a term continues does not depend on what is around it. -/
theorem trace_continues (guard : Guard ℓ) : ∀ exp : NCExp τ α ℓ,
    (trace guard false exp).continues = (trace .unguarded false exp).continues
  | .ncForeignApply funExp _ argExpList _ loc => by
      simp [trace, seq_continues, trace_continues guard funExp,
        traceList_continues guard argExpList,
        Guard.site_continues]
  | .ncExportCallback codeExp closureEnvExp _ _ _ => by
      simp [trace, seq_continues, trace_continues guard codeExp,
        trace_continues guard closureEnvExp]
  | .ncConst _ _ _ => rfl
  | .ncIntInf _ _ => rfl
  | .ncVar _ _ => rfl
  | .ncExVar _ _ _ => rfl
  | .ncPack exp _ _ => trace_continues guard exp
  | .ncUnpack exp _ _ => trace_continues guard exp
  | .ncDup srcAddr _ valueSize _ => by
      simp [trace, seq_continues, traceAddress_continues guard srcAddr,
        trace_continues guard valueSize]
  | .ncLoad srcAddr _ _ => traceAddress_continues guard srcAddr
  | .ncCopy srcExp dstAddr valueSize _ => by
      simp [trace, seq_continues, trace_continues guard srcExp,
        traceAddress_continues guard dstAddr, trace_continues guard valueSize]
  | .ncStore srcExp _ dstAddr _ => by
      simp [trace, seq_continues, trace_continues guard srcExp,
        traceAddress_continues guard dstAddr]
  | .ncPrimApply _ argExpList _ _ _ instTagList instSizeList _ => by
      simp [trace, seq_continues, traceList_continues guard argExpList,
        traceList_continues guard instTagList, traceList_continues guard instSizeList]
  | .ncCall codeExp closureEnvExp argExpList _ loc => by
      simp [trace, seq_continues, trace_continues guard codeExp,
        traceOption_continues guard closureEnvExp, traceList_continues guard argExpList,
        Guard.site_continues]
  | .ncLet _ boundExp mainExp _ => by
      simp [trace, seq_continues, trace_continues guard boundExp, trace_continues guard mainExp]
  | .ncRecord fieldList _ _ _ allocSizeExp bitmaps _ => by
      simp [trace, seq_continues, traceFieldList_continues guard fieldList,
        trace_continues guard allocSizeExp, traceBitmapList_continues guard bitmaps]
  | .ncModify recordExp _ indexExp _ _ _ => by
      simp [trace, seq_continues, trace_continues guard recordExp, trace_continues guard indexExp]
  | .ncRaise argExp _ loc => by
      simp [trace, seq_continues, Trace.stop]
  | .ncHandle _ _ _ _ _ => rfl
  | .ncSwitch _ _ _ _ _ _ => rfl
  | .ncCatch _ _ _ _ _ _ => rfl
  | .ncThrow _ argExpList _ _ => by
      simp [trace, seq_continues, Trace.stop]
  | .ncCast exp _ _ _ _ => trace_continues guard exp
  | .ncExportVar _ _ valueExp _ => trace_continues guard valueExp

theorem traceList_continues (guard : Guard ℓ) : ∀ exps : List (NCExp τ α ℓ),
    (traceList guard exps).continues = (traceList .unguarded exps).continues
  | [] => rfl
  | exp :: exps => by
      simp [traceList, seq_continues, trace_continues guard exp, traceList_continues guard exps]

theorem traceOption_continues (guard : Guard ℓ) : ∀ exp : Option (NCExp τ α ℓ),
    (traceOption guard exp).continues = (traceOption .unguarded exp).continues
  | none => rfl
  | some exp => trace_continues guard exp

theorem traceAddress_continues (guard : Guard ℓ) : ∀ address : NCAddress τ α ℓ,
    (traceAddress guard address).continues = (traceAddress .unguarded address).continues
  | .naPtr ptrExp => trace_continues guard ptrExp
  | .naRecordField recordExp fieldIndex => by
      simp [traceAddress, seq_continues, trace_continues guard recordExp,
        trace_continues guard fieldIndex]
  | .naArrayElem arrayExp elemSize elemIndex => by
      simp [traceAddress, seq_continues, trace_continues guard arrayExp,
        trace_continues guard elemSize, trace_continues guard elemIndex]

theorem traceField_continues (guard : Guard ℓ) : ∀ field : NCField τ α ℓ,
    (traceField guard field).continues = (traceField .unguarded field).continues
  | .mk _ _ fieldIndex => trace_continues guard fieldIndex

theorem traceFieldList_continues (guard : Guard ℓ) : ∀ fields : List (NCField τ α ℓ),
    (traceFieldList guard fields).continues = (traceFieldList .unguarded fields).continues
  | [] => rfl
  | field :: fields => by
      simp [traceFieldList, seq_continues, traceField_continues guard field,
        traceFieldList_continues guard fields]

theorem traceBitmap_continues (guard : Guard ℓ) : ∀ bitmap : NCBitmap τ α ℓ,
    (traceBitmap guard bitmap).continues = (traceBitmap .unguarded bitmap).continues
  | .mk bitmapIndex bitmapExp => by
      simp [traceBitmap, seq_continues, trace_continues guard bitmapIndex,
        trace_continues guard bitmapExp]

theorem traceBitmapList_continues (guard : Guard ℓ) : ∀ bitmaps : List (NCBitmap τ α ℓ),
    (traceBitmapList guard bitmaps).continues = (traceBitmapList .unguarded bitmaps).continues
  | [] => rfl
  | bitmap :: bitmaps => by
      simp [traceBitmapList, seq_continues, traceBitmap_continues guard bitmap,
        traceBitmapList_continues guard bitmaps]

end

mutual

/-- Under a cleanup the calls in tail position are what a tail position changes. -/
theorem trace_tail_cleanup : ∀ exp : NCExp τ α ℓ,
    DifferBy (trace .cleanup true exp).sites (trace .cleanup false exp).sites (hasTailCall exp)
  | .ncCall codeExp closureEnvExp argExpList _ loc => by
      have hsite : DifferBy ((Guard.cleanup : Guard ℓ).tailSite loc).sites
          ((Guard.cleanup : Guard ℓ).site .call loc).sites true :=
        ⟨rfl, by simp [Guard.tailSite, Guard.site]⟩
      have hcall := ((hsite.seq (traceList .cleanup argExpList)).seq
        (traceOption .cleanup closureEnvExp)).seq (trace .cleanup false codeExp)
      rw [Bool.and_true, trace_continues, traceOption_continues, traceList_continues] at hcall
      exact hcall
  | .ncLet _ boundExp mainExp _ => by
      have hlet := (trace_tail_cleanup mainExp).seq (trace .cleanup false boundExp)
      rw [trace_continues] at hlet
      exact hlet
  | .ncHandle tryExp _ handlerExp _ loc =>
    (trace_tail_cleanup handlerExp).prepend _
  | .ncSwitch switchExp _ branches defaultExp _ _ => by
      have hswitch := ((trace_tail_cleanup defaultExp).prepend
        (trace .cleanup false switchExp).sites).append (traceBranches_tail_cleanup branches)
      rw [Bool.or_comm] at hswitch
      exact hswitch
  | .ncCatch _ _ catchExp tryExp _ _ => by
      have hcatch := (trace_tail_cleanup tryExp).append (trace_tail_cleanup catchExp)
      rw [Bool.or_comm] at hcatch
      exact hcatch
  | .ncForeignApply _ _ _ _ _ => .refl _
  | .ncExportCallback _ _ _ _ _ => .refl _
  | .ncConst _ _ _ => .refl _
  | .ncIntInf _ _ => .refl _
  | .ncVar _ _ => .refl _
  | .ncExVar _ _ _ => .refl _
  | .ncPack _ _ _ => .refl _
  | .ncUnpack _ _ _ => .refl _
  | .ncDup _ _ _ _ => .refl _
  | .ncLoad _ _ _ => .refl _
  | .ncCopy _ _ _ _ => .refl _
  | .ncStore _ _ _ _ => .refl _
  | .ncPrimApply _ _ _ _ _ _ _ _ => .refl _
  | .ncRecord _ _ _ _ _ _ _ => .refl _
  | .ncModify _ _ _ _ _ _ => .refl _
  | .ncRaise _ _ _ => .refl _
  | .ncThrow _ _ _ _ => .refl _
  | .ncCast _ _ _ _ _ => .refl _
  | .ncExportVar _ _ _ _ => .refl _

theorem traceBranch_tail_cleanup : ∀ branch : NCBranch τ α ℓ,
    DifferBy (traceBranch .cleanup true branch) (traceBranch .cleanup false branch)
      (hasTailCallBranch branch)
  | .mk _ branchExp => trace_tail_cleanup branchExp

theorem traceBranches_tail_cleanup : ∀ branches : List (NCBranch τ α ℓ),
    DifferBy (traceBranches .cleanup true branches) (traceBranches .cleanup false branches)
      (hasTailCallBranches branches)
  | [] => .refl _
  | branch :: branches => by
      have hbranches := (traceBranches_tail_cleanup branches).append
        (traceBranch_tail_cleanup branch)
      rw [Bool.or_comm] at hbranches
      exact hbranches

end

mutual

/-- Without a cleanup a tail position changes nothing. -/
theorem trace_tail_unguarded : ∀ exp : NCExp τ α ℓ,
    trace .unguarded true exp = trace .unguarded false exp
  | .ncCall _ _ _ _ _ => rfl
  | .ncLet _ boundExp mainExp _ => by rw [trace, trace, trace_tail_unguarded mainExp]
  | .ncHandle tryExp _ handlerExp _ loc => by rw [trace, trace, trace_tail_unguarded handlerExp]
  | .ncSwitch switchExp _ branches defaultExp _ _ => by
      rw [trace, trace, trace_tail_unguarded defaultExp, traceBranches_tail_unguarded branches]
  | .ncCatch _ _ catchExp tryExp _ _ => by
      rw [trace, trace, trace_tail_unguarded catchExp, trace_tail_unguarded tryExp]
  | .ncForeignApply _ _ _ _ _ => rfl
  | .ncExportCallback _ _ _ _ _ => rfl
  | .ncConst _ _ _ => rfl
  | .ncIntInf _ _ => rfl
  | .ncVar _ _ => rfl
  | .ncExVar _ _ _ => rfl
  | .ncPack _ _ _ => rfl
  | .ncUnpack _ _ _ => rfl
  | .ncDup _ _ _ _ => rfl
  | .ncLoad _ _ _ => rfl
  | .ncCopy _ _ _ _ => rfl
  | .ncStore _ _ _ _ => rfl
  | .ncPrimApply _ _ _ _ _ _ _ _ => rfl
  | .ncRecord _ _ _ _ _ _ _ => rfl
  | .ncModify _ _ _ _ _ _ => rfl
  | .ncRaise _ _ _ => rfl
  | .ncThrow _ _ _ _ => rfl
  | .ncCast _ _ _ _ _ => rfl
  | .ncExportVar _ _ _ _ => rfl

theorem traceBranch_tail_unguarded : ∀ branch : NCBranch τ α ℓ,
    traceBranch .unguarded true branch = traceBranch .unguarded false branch
  | .mk _ branchExp => by rw [traceBranch, traceBranch, trace_tail_unguarded branchExp]

theorem traceBranches_tail_unguarded : ∀ branches : List (NCBranch τ α ℓ),
    traceBranches .unguarded true branches = traceBranches .unguarded false branches
  | [] => rfl
  | branch :: branches => by
      rw [traceBranches, traceBranches, traceBranch_tail_unguarded branch,
        traceBranches_tail_unguarded branches]

end

/-! Programs. -/

variable [Builtin τ ℓ]

/-- The translated body of a function has the sites of its term in tail
position. -/
theorem compileFunBody_places {funId : Option Nat} {closureEnvVar : Option (VarInfo τ)}
    {argVarList : List (VarInfo τ)} {bodyExp : NCExp τ α ℓ} {handler : Handler} {loc : ℓ}
    {guarded : Bool} {guard : Guard ℓ} (haround : Around handler [] guarded guard)
    (htail : handler = .noHandler ∨ handler = .cleanup ∧ funId = none) {before after : State}
    {result : Option (VarInfo τ) × List (VarInfo τ) × ANExp τ α ℓ}
    (hrun : compileFunBody funId closureEnvVar argVarList bodyExp handler loc before =
      .ok (result, after)) :
    BranchSites [] guarded result.2.2 (trace guard true bodyExp).sites after := by
  obtain ⟨_, state1, hmodify, hrun⟩ := stateT_bind_ok.1 hrun
  obtain ⟨⟨env1, closureEnvVar⟩, state2, hclosure, hrun⟩ := stateT_bind_ok.1 hrun
  obtain ⟨⟨env2, argVarList⟩, state3, hargs, hrun⟩ := stateT_bind_ok.1 hrun
  obtain ⟨⟨proc, ret⟩, state4, hbody, hrun⟩ := stateT_bind_ok.1 hrun
  obtain ⟨code, state5, hproc, hrun⟩ := stateT_bind_ok.1 hrun
  obtain ⟨state, state6, hget, hrun⟩ := stateT_bind_ok.1 hrun
  obtain ⟨rfl, rfl⟩ := Prod.mk.inj (stateT_get_ok.1 hget)
  have hplace : Place (⟨funId, handler, fun _ => none⟩ : Env τ α) .tail ([] : List (Frame ℓ))
      guarded guard := ⟨haround, fun _ => htail⟩
  have hplace1 := addBoundVarOpt_place hplace hclosure
  have hplace2 := addBoundVars_place hplace1 hargs
  have hframes : FramesBelow ([] : List (Frame ℓ)) state3.nextLocalLabel := by
    intro frame hframe
    cases hframe
  obtain ⟨-, hemits⟩ := compileExp_emits hplace2 bodyExp state3 _ state4 hframes hbody
  obtain ⟨-, hplaces⟩ := hemits .anUnreachable state4 code _ (.refl state4) hproc
  have hcode : BranchSites [] guarded code (trace guard true bodyExp).sites state5 := by
    intro cleanup hagrees
    obtain ⟨hsites, hbound⟩ := hplaces cleanup hagrees
    rw [codeSites, ite_self, List.append_nil, seq_contextEnd_sites] at hsites
    exact ⟨hsites, hbound trivial⟩
  cases hloop : state5.loopLabel with
  | none =>
    rw [hloop] at hrun
    obtain ⟨rfl, rfl⟩ := Prod.mk.inj (stateT_pure_ok.1 hrun)
    exact hcode
  | some label =>
    rw [hloop] at hrun
    obtain ⟨rfl, rfl⟩ := Prod.mk.inj (stateT_pure_ok.1 hrun)
    intro cleanup hagrees
    obtain ⟨hsites, hbound⟩ := hcode cleanup hagrees
    refine ⟨?_, trivial, hbound⟩
    rw [codeSites, hsites]
    rfl

/-- A callback function that makes a call in tail position. -/
def isTailCallingCallback : NCTopdec τ α ℓ → Bool
  | .ntFunction _ _ _ _ _ _ _ _ => false
  | .ntCallbackFunction _ _ _ _ bodyExp _ _ _ => hasTailCall bodyExp

theorem compileTopdec_preserved_iff {topdec : NCTopdec τ α ℓ} {before after : State}
    {code : ANTopdec τ α ℓ} (hrun : compileTopdec topdec before = .ok (code, after)) :
    TopdecPreserved topdec code ↔ isTailCallingCallback topdec = false := by
  cases topdec with
  | ntFunction id tyvarKindEnv argVarList closureEnvVar bodyExp retTy gcCheck loc =>
    obtain ⟨⟨closureEnvVar, argVarList, body⟩, middle, hbody, hrun⟩ := stateT_bind_ok.1 hrun
    obtain ⟨rfl, rfl⟩ := Prod.mk.inj (stateT_pure_ok.1 hrun)
    have hagrees : middle.Agrees false none := fun hguarded => by cases hguarded
    obtain ⟨hsites, hbound⟩ := compileFunBody_places .noHandler (.inl rfl) hbody none hagrees
    rw [trace_tail_unguarded] at hsites
    exact ⟨fun _ => rfl, fun _ => ⟨hsites, hbound⟩⟩
  | ntCallbackFunction id tyvarKindEnv argVarList closureEnvVar bodyExp attributes retTy loc =>
    obtain ⟨⟨closureEnvVar, argVarList, body⟩, middle, hbody, hrun⟩ := stateT_bind_ok.1 hrun
    obtain ⟨state, middle', hget, hrun⟩ := stateT_bind_ok.1 hrun
    obtain ⟨rfl, rfl⟩ := Prod.mk.inj (stateT_get_ok.1 hget)
    obtain ⟨rfl, rfl⟩ := Prod.mk.inj (stateT_pure_ok.1 hrun)
    have hagrees : middle.Agrees true middle.cleanupHandler := fun _ _ hlabel => hlabel
    obtain ⟨hsites, hbound⟩ := compileFunBody_places .cleanup (.inr ⟨rfl, rfl⟩) hbody
      middle.cleanupHandler hagrees
    change _ ∧ _ ↔ hasTailCall bodyExp = false
    rw [← (trace_tail_cleanup bodyExp).eq_iff, ← hsites]
    exact ⟨fun hpreserved => hpreserved.1, fun heq => ⟨heq, hbound⟩⟩

theorem compileTopdecs_preserved_iff {topdecs : List (NCTopdec τ α ℓ)} {before after : State}
    {codes : List (ANTopdec τ α ℓ)} (hrun : compileTopdecs topdecs before = .ok (codes, after)) :
    List.Forall₂ TopdecPreserved topdecs codes ↔
      ∀ topdec ∈ topdecs, isTailCallingCallback topdec = false := by
  induction topdecs generalizing before after codes with
  | nil =>
    obtain ⟨rfl, rfl⟩ := Prod.mk.inj (stateT_pure_ok.1 hrun)
    simp
  | cons topdec topdecs ih =>
    obtain ⟨code, state1, hcode, hrun⟩ := stateT_bind_ok.1 hrun
    obtain ⟨rest, state2, hrest, hrun⟩ := stateT_bind_ok.1 hrun
    obtain ⟨rfl, rfl⟩ := Prod.mk.inj (stateT_pure_ok.1 hrun)
    rw [List.forall₂_cons, compileTopdec_preserved_iff hcode, ih hrest, List.forall_mem_cons]

theorem monotone_assertTopExp (loopLabel : Option FunLocalLabel) (ret : ANValue τ α) :
    Monotone (assertTopExp loopLabel ret) := by
  intro before result after hrun
  unfold assertTopExp at hrun
  split at hrun
  · exact monotone_pure _ _ _ _ hrun
  · exact absurd hrun stateT_throw_ok

/-- The parts of a program are translated one after the other. -/
theorem compile_ok {program : NCProgram τ α ℓ} {before after : State}
    {code : ANProgram τ α ℓ} (hrun : compile program before = .ok (code, after)) :
    (∃ start middle, compileTopdecs program.topdecs start = .ok (code.topdecs, middle)) ∧
      BodyPreserved .cleanup ⟨true, code.topCleanupHandler⟩ program.topExp code.topExp := by
  obtain ⟨_, state1, hmodify, hrun⟩ := stateT_bind_ok.1 hrun
  obtain ⟨topdecs, state2, htopdecs, hrun⟩ := stateT_bind_ok.1 hrun
  obtain ⟨_, state3, hreset, hrun⟩ := stateT_bind_ok.1 hrun
  obtain ⟨⟨proc, ret⟩, state4, htop, hrun⟩ := stateT_bind_ok.1 hrun
  obtain ⟨state, state5, hget, hrun⟩ := stateT_bind_ok.1 hrun
  obtain ⟨rfl, rfl⟩ := Prod.mk.inj (stateT_get_ok.1 hget)
  obtain ⟨_, state5, hassert, hrun⟩ := stateT_bind_ok.1 hrun
  obtain ⟨topExp, state6, hproc, hrun⟩ := stateT_bind_ok.1 hrun
  obtain ⟨state, state7, hget, hrun⟩ := stateT_bind_ok.1 hrun
  obtain ⟨rfl, rfl⟩ := Prod.mk.inj (stateT_get_ok.1 hget)
  obtain ⟨rfl, rfl⟩ := Prod.mk.inj (stateT_pure_ok.1 hrun)
  have hplace : Place (⟨none, .cleanup, fun _ => none⟩ : Env τ α) .nontail
      ([] : List (Frame ℓ)) true .cleanup := ⟨.cleanup, fun htail => by cases htail⟩
  have hframes : FramesBelow ([] : List (Frame ℓ)) state3.nextLocalLabel := by
    intro frame hframe
    cases hframe
  obtain ⟨-, hemits⟩ := (compileExp_emits hplace program.topExp).value state3 _ state4 hframes htop
  obtain ⟨-, hplaces⟩ := hemits _ _ topExp _ (monotone_assertTopExp _ _ _ _ _ hassert) hproc
  obtain ⟨hsites, hbound⟩ := hplaces state6.cleanupHandler fun _ _ hlabel => hlabel
  rw [codeSites, ite_self, List.append_nil] at hsites
  exact ⟨⟨state1, state2, htopdecs⟩, hsites, hbound trivial⟩

/-- The translation of a program keeps the exits of all its guarded sites exactly
if no callback function makes a call in tail position. -/
theorem compile_exits_iff {program : NCProgram τ α ℓ} {before after : State}
    {code : ANProgram τ α ℓ} (hrun : compile program before = .ok (code, after)) :
    ExitsPreserved program code ↔
      ∀ topdec ∈ program.topdecs, isTailCallingCallback topdec = false := by
  obtain ⟨⟨start, middle, htopdecs⟩, htop⟩ := compile_ok hrun
  rw [ExitsPreserved, compileTopdecs_preserved_iff htopdecs]
  exact ⟨fun hpreserved => hpreserved.1, fun htail => ⟨htail, htop⟩⟩

instance : Builtin Unit Nat := ⟨(), (), id, 0⟩

def callFun (loc : Nat) : NCExp Unit Unit Nat :=
  .ncCall (.ncConst (.nvFunEntry 0) () 0) none [] () loc

/-- A callback function that binds the result of its call, a function that calls
inside a handler, and a call at the top level. -/
def boundCalls : NCProgram Unit Unit Nat where
  topdata := []
  topdecs :=
    [.ntCallbackFunction 0 () [] none (.ncLet ⟨1, ()⟩ (callFun 1) (.ncVar ⟨1, ()⟩ 2) 3) () none 4,
      .ntFunction 0 () [] none
        (.ncHandle (callFun 5) ⟨2, ()⟩ (.ncRaise (.ncVar ⟨2, ()⟩ 6) () 7) () 8) () true 9]
  topExp := .ncLet ⟨3, ()⟩ (callFun 10) (.ncConst .nvUnit () 11) 12

/-- No callback function of `boundCalls` ends in a call, and every exit runs the
cleanup handler it ran in the source. -/
theorem compile_exits_iff_boundCalls :
    ∃ code after, compile boundCalls ⟨0, [], 0, 0, none, none⟩ = .ok (code, after) ∧
      ExitsPreserved boundCalls code := by
  have hok : okAnd (compile boundCalls ⟨0, [], 0, 0, none, none⟩) (fun _ => true) = true := by
    decide +kernel
  obtain ⟨⟨code, after⟩, hrun, -⟩ := okAnd_iff.1 hok
  exact ⟨code, after, hrun, (compile_exits_iff hrun).2 (by decide)⟩

/-- A callback function whose body is a call. -/
def tailCallback : NCProgram Unit Unit Nat where
  topdata := []
  topdecs := [.ntCallbackFunction 0 () [] none (callFun 1) () none 2]
  topExp := .ncConst .nvUnit () 3

/-- Its call becomes a tail call, which leaves the cleanup handler behind. -/
theorem tailCallback_loses_cleanup :
    ¬ ∀ (program : NCProgram Unit Unit Nat) (before after : State)
      (code : ANProgram Unit Unit Nat), compile program before = .ok (code, after) →
        ExitsPreserved program code := by
  intro hall
  have hok : okAnd (compile tailCallback ⟨0, [], 0, 0, none, none⟩) (fun _ => true) = true := by
    decide +kernel
  obtain ⟨⟨code, after⟩, hrun, -⟩ := okAnd_iff.1 hok
  obtain ⟨⟨start, middle, htopdecs⟩, -⟩ := compile_ok hrun
  have htail := (compileTopdecs_preserved_iff htopdecs).1 (hall _ _ _ _ hrun).1 _ List.mem_cons_self
  exact absurd htail (by decide)

end ANormalize

end SmlSharp
