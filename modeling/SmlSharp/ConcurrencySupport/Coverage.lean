/-
Coverage of the inserted checks.  The code with checks at its loops follows the
given code edge by edge; a cycle needs an edge into a recursive local code, and
the check stands behind every such edge.
-/
import SmlSharp.ConcurrencySupport.InsertCheckGC

namespace SmlSharp

namespace ConcurrencySupport

open MachineCode Relation

variable {δ : Type} {handler : Option HandlerLabel}

/-! The places of the code with checks at its loops. -/

def bodyWithCheck (handler : Option HandlerLabel) (recursive : Bool)
    (bodyExp : Mcexp δ) : Mcexp δ :=
  if recursive then addCheck handler (insertCheckAtLoop handler bodyExp)
  else insertCheckAtLoop handler bodyExp

def insertFrame (handler : Option HandlerLabel) : Frame δ → Frame δ
  | .localcode id recursive bodyExp =>
    .localcode id recursive (bodyWithCheck handler recursive bodyExp)
  | .handler id cleanup handlerExp =>
    .handler id cleanup (insertCheckAtLoop handler handlerExp)

def insertScope (handler : Option HandlerLabel) (scope : Scope δ) : Scope δ :=
  scope.map (insertFrame handler)

def insertPoint (handler : Option HandlerLabel) (p : Point δ) : Point δ :=
  ⟨insertScope handler p.scope, insertCheckAtLoop handler p.exp⟩

/-- The place behind an edge: at the check when the edge enters a loop. -/
def landing (handler : Option HandlerLabel) (recursive : Bool) (p : Point δ) : Point δ :=
  if recursive then
    ⟨insertScope handler p.scope, addCheck handler (insertCheckAtLoop handler p.exp)⟩
  else insertPoint handler p

theorem findLabel_insertScope (scope : Scope δ) (label : FunLocalLabel) :
    findLabel (insertScope handler scope) label =
      (findLabel scope label).map fun found => (found.1, landing handler found.1 found.2) := by
  induction scope with
  | nil => rfl
  | cons frame scope ih =>
    cases frame with
    | localcode id recursive bodyExp =>
      change findLabel (.localcode id recursive (bodyWithCheck handler recursive bodyExp) ::
        insertScope handler scope) label = _
      rw [findLabel, findLabel]
      by_cases heq : id = label
      · rw [if_pos heq, if_pos heq]
        cases recursive <;> rfl
      · rw [if_neg heq, if_neg heq]
        exact ih
    | handler id cleanup handlerExp => exact ih

theorem caught_insert {scope : Scope δ} {label : HandlerLabel} {target : Point δ}
    (hcaught : Caught scope label target) :
    Caught (insertScope handler scope) label (insertPoint handler target) := by
  induction hcaught with
  | here => exact .here
  | cleanup _ ih => exact .cleanup ih
  | outer hne _ ih => exact .outer hne ih
  | localcode _ ih => exact .localcode ih

theorem caught_of_insert {scope : Scope δ} {label : HandlerLabel} {target : Point δ}
    (hcaught : Caught (insertScope handler scope) label target) :
    ∃ target', Caught scope label target' ∧ target = insertPoint handler target' := by
  induction scope generalizing label with
  | nil => cases hcaught
  | cons frame scope ih =>
    cases frame with
    | localcode id recursive bodyExp =>
      change Caught (.localcode id recursive _ :: insertScope handler scope) label target
        at hcaught
      cases hcaught with
      | localcode hcaught =>
        obtain ⟨target', hcaught', heq⟩ := ih hcaught
        exact ⟨target', .localcode hcaught', heq⟩
    | handler id cleanup handlerExp =>
      change Caught (.handler id cleanup (insertCheckAtLoop handler handlerExp) ::
        insertScope handler scope) label target at hcaught
      cases hcaught with
      | here => exact ⟨⟨scope, handlerExp⟩, .here, rfl⟩
      | cleanup hcaught =>
        obtain ⟨target', hcaught', heq⟩ := ih hcaught
        exact ⟨target', .cleanup hcaught', heq⟩
      | outer hne hcaught =>
        obtain ⟨target', hcaught', heq⟩ := ih hcaught
        exact ⟨target', .outer hne hcaught', heq⟩

theorem findLabel_of_insertScope {scope : Scope δ} {label : FunLocalLabel}
    {recursive : Bool} {target : Point δ}
    (hfind : findLabel (insertScope handler scope) label = some (recursive, target)) :
    ∃ target', findLabel scope label = some (recursive, target') ∧
      target = landing handler recursive target' := by
  rw [findLabel_insertScope, Option.map_eq_some_iff] at hfind
  obtain ⟨⟨recursive', target'⟩, hfound, heq⟩ := hfind
  obtain ⟨rfl, rfl⟩ := Prod.mk.inj heq
  exact ⟨target', hfound, rfl⟩

theorem findLabel_insert {scope : Scope δ} {label : FunLocalLabel} {recursive : Bool}
    {target : Point δ} (hfind : findLabel scope label = some (recursive, target)) :
    findLabel (insertScope handler scope) label =
      some (recursive, landing handler recursive target) := by
  rw [findLabel_insertScope, hfind]
  rfl

theorem edge_insert {recursive : Bool} {p q : Point δ} (hedge : Edge recursive p q) :
    Edge recursive (insertPoint handler p) (landing handler recursive q) := by
  cases hedge with
  | mid => exact .mid
  | unwind hhandler hcaught => exact .unwind hhandler (caught_insert hcaught)
  | raise hcaught => exact .raise (caught_insert hcaught)
  | handler => exact .handler
  | switch hlabel hfind => exact .switch hlabel (findLabel_insert hfind)
  | localcode => exact .localcode
  | goto hfind => exact .goto (findLabel_insert hfind)

theorem edge_of_insert {recursive : Bool} {p q' : Point δ}
    (hedge : Edge recursive (insertPoint handler p) q') :
    ∃ q, Edge recursive p q ∧ q' = landing handler recursive q := by
  obtain ⟨scope, ⟨mids, last⟩⟩ := p
  change Edge recursive ⟨insertScope handler scope, .mk mids (insertCheckAtLast handler last)⟩
    q' at hedge
  cases mids with
  | cons mid mids =>
    cases hedge with
    | mid => exact ⟨⟨scope, .mk mids last⟩, .mid, rfl⟩
    | unwind hhandler hcaught =>
      obtain ⟨q, hcaught', rfl⟩ := caught_of_insert hcaught
      exact ⟨q, .unwind hhandler hcaught', rfl⟩
  | nil =>
    cases last with
    | mcreturn args => cases hedge
    | mcraise args cleanup =>
      cases hedge with
      | raise hcaught =>
        obtain ⟨q, hcaught', rfl⟩ := caught_of_insert hcaught
        exact ⟨q, .raise hcaught', rfl⟩
    | mchandler nextExp id args handlerExp cleanup =>
      cases hedge with
      | handler => exact ⟨⟨_, nextExp⟩, .handler, rfl⟩
    | mcswitch args branches default =>
      cases hedge with
      | switch hlabel hfind =>
        obtain ⟨q, hfind', rfl⟩ := findLabel_of_insertScope hfind
        exact ⟨q, .switch hlabel hfind', rfl⟩
    | mclocalcode id recursive args bodyExp nextExp =>
      cases hedge with
      | localcode => exact ⟨⟨_, nextExp⟩, .localcode, rfl⟩
    | mcgoto id args =>
      cases hedge with
      | goto hfind =>
        obtain ⟨q, hfind', rfl⟩ := findLabel_of_insertScope hfind
        exact ⟨q, .goto hfind', rfl⟩
    | mcunreachable => cases hedge

theorem atCheck_landing_true (p : Point δ) : AtCheck (landing handler true p) :=
  .mk

theorem atCheck_insertPoint {p : Point δ} :
    AtCheck (insertPoint handler p) ↔ AtCheck p := by
  obtain ⟨scope, ⟨mids, last⟩⟩ := p
  change AtCheck ⟨insertScope handler scope, .mk mids (insertCheckAtLast handler last)⟩ ↔ _
  constructor
  · intro hcheck
    cases hcheck
    exact .mk
  · intro hcheck
    cases hcheck
    exact .mk

theorem exit_insertPoint {p : Point δ} : Exit (insertPoint handler p) ↔ Exit p := by
  obtain ⟨scope, ⟨mids, last⟩⟩ := p
  change Exit ⟨insertScope handler scope, .mk mids (insertCheckAtLast handler last)⟩ ↔ _
  constructor
  · intro hexit
    cases last with
    | mcreturn args =>
      cases hexit
      exact .mcreturn
    | mcraise args cleanup =>
      cases hexit with
      | mcraise huncaught =>
        exact .mcraise fun label target hcleanup hcaught =>
          huncaught label _ hcleanup (caught_insert hcaught)
    | mchandler nextExp id args handlerExp cleanup => cases hexit
    | mcswitch args branches default => cases hexit
    | mclocalcode id recursive args bodyExp nextExp => cases hexit
    | mcgoto id args => cases hexit
    | mcunreachable => cases hexit
  · intro hexit
    cases hexit with
    | mcreturn => exact .mcreturn
    | mcraise huncaught =>
      refine .mcraise fun label target hcleanup hcaught => ?_
      obtain ⟨target', hcaught', -⟩ := caught_of_insert hcaught
      exact huncaught label target' hcleanup hcaught'

theorem occurs_of_insert {body : Mcexp δ} {p' : Point δ}
    (hoccurs : Occurs (insertCheckAtLoop handler body) p') :
    ∃ recursive p, p' = landing handler recursive p := by
  induction hoccurs with
  | entry => exact ⟨false, ⟨[], body⟩, rfl⟩
  | @mid scope' mid' mids' last' _ ih =>
    obtain ⟨entered, ⟨scope, ⟨mids, last⟩⟩, heq⟩ := ih
    cases entered with
    | false =>
      cases mids with
      | nil => exact absurd (congrArg (fun p => p.exp.mids) heq) (List.cons_ne_nil _ _)
      | cons mid mids =>
        cases heq
        exact ⟨false, ⟨scope, .mk mids' last⟩, rfl⟩
    | true =>
      cases heq
      exact ⟨false, ⟨scope, .mk mids last⟩, rfl⟩
  | @handlerNext scope' nextExp' handlerExp' id args cleanup _ ih =>
    obtain ⟨entered, ⟨scope, ⟨mids, last⟩⟩, heq⟩ := ih
    cases entered with
    | true => cases heq
    | false =>
      cases last with
      | mchandler nextExp _ _ handlerExp _ =>
        cases heq
        exact ⟨false, ⟨.handler id cleanup handlerExp :: scope, nextExp⟩, rfl⟩
      | mcreturn | mcraise | mcswitch | mclocalcode | mcgoto | mcunreachable => cases heq
  | @handlerExp scope' nextExp' handlerExp' id args cleanup _ ih =>
    obtain ⟨entered, ⟨scope, ⟨mids, last⟩⟩, heq⟩ := ih
    cases entered with
    | true => cases heq
    | false =>
      cases last with
      | mchandler nextExp _ _ handlerExp _ =>
        cases heq
        exact ⟨false, ⟨scope, handlerExp⟩, rfl⟩
      | mcreturn | mcraise | mcswitch | mclocalcode | mcgoto | mcunreachable => cases heq
  | @localNext scope' id recursive args bodyExp' nextExp' _ ih =>
    obtain ⟨entered, ⟨scope, ⟨mids, last⟩⟩, heq⟩ := ih
    cases entered with
    | true => cases heq
    | false =>
      cases last with
      | mclocalcode _ _ _ bodyExp nextExp =>
        cases heq
        exact ⟨false, ⟨.localcode id recursive bodyExp :: scope, nextExp⟩, rfl⟩
      | mcreturn | mcraise | mcswitch | mchandler | mcgoto | mcunreachable => cases heq
  | @localBody scope' id recursive args bodyExp' nextExp' _ ih =>
    obtain ⟨entered, ⟨scope, ⟨mids, last⟩⟩, heq⟩ := ih
    cases entered with
    | true => cases heq
    | false =>
      cases last with
      | mclocalcode _ _ _ bodyExp nextExp =>
        cases heq
        cases recursive with
        | true =>
          exact ⟨true, ⟨.localcode id true bodyExp :: scope, bodyExp⟩, rfl⟩
        | false => exact ⟨false, ⟨scope, bodyExp⟩, rfl⟩
      | mcreturn | mcraise | mcswitch | mchandler | mcgoto | mcunreachable => cases heq

/-! The two rules. -/

/-- Every cycle executes a check. -/
def CheckedLoops (body : Mcexp δ) : Prop :=
  ∀ p, Occurs body p → ¬TransGen Unchecked p p

/-- Every path from the entry to an exit executes a check. -/
def CheckedExits (body : Mcexp δ) : Prop :=
  ∀ q, Exit q → ¬ReflTransGen Unchecked ⟨[], body⟩ q

/-- An edge without a check on either side enters no loop. -/
theorem unchecked_insertPoint {p q' : Point δ}
    (hstep : Unchecked (insertPoint handler p) q') (hnext : ¬AtCheck q') :
    ∃ q, q' = insertPoint handler q ∧ Edge false p q := by
  obtain ⟨⟨recursive, hedge⟩, -⟩ := hstep
  obtain ⟨q, hedge', rfl⟩ := edge_of_insert hedge
  cases recursive with
  | true => exact absurd (atCheck_landing_true q) hnext
  | false => exact ⟨q, rfl, hedge'⟩

/-- A stretch without a check goes down, so it does not close. -/
theorem transGen_unchecked_insertPoint {p q' : Point δ}
    (hsteps : TransGen Unchecked (insertPoint handler p) q') (hnext : ¬AtCheck q') :
    (∃ q, q' = insertPoint handler q) ∧ q'.weight < (insertPoint handler p).weight := by
  induction hsteps with
  | single hstep =>
    obtain ⟨q, rfl, hedge⟩ := unchecked_insertPoint hstep hnext
    exact ⟨⟨q, rfl⟩, (edge_insert hedge).weight_lt⟩
  | tail _ hstep ih =>
    obtain ⟨⟨q, rfl⟩, hlt⟩ := ih hstep.2
    obtain ⟨r, rfl, hedge⟩ := unchecked_insertPoint hstep hnext
    exact ⟨⟨r, rfl⟩, lt_trans (edge_insert hedge).weight_lt hlt⟩

theorem checkedLoops_insertCheckAtLoop (body : Mcexp δ) :
    CheckedLoops (insertCheckAtLoop handler body) := by
  intro p' hoccurs hcycle
  have hstart : ¬AtCheck p' := by
    obtain ⟨q, hstep, -⟩ := TransGen.head'_iff.1 hcycle
    exact hstep.2
  obtain ⟨recursive, p, rfl⟩ := occurs_of_insert hoccurs
  cases recursive with
  | true => exact hstart (atCheck_landing_true p)
  | false => exact lt_irrefl _ (transGen_unchecked_insertPoint hcycle hstart).2

/-- An edge of the given code that neither executes a check nor enters a loop. -/
def Bypassing (p q : Point δ) : Prop :=
  Edge false p q ∧ ¬AtCheck p

/-- Every path of the given code from the entry to an exit executes a check or
enters a recursive local code. -/
def LoopBeforeExits (body : Mcexp δ) : Prop :=
  ∀ q, Exit q → ¬ReflTransGen Bypassing ⟨[], body⟩ q

theorem unchecked_of_bypassing {p q : Point δ} (hsteps : ReflTransGen Bypassing p q) :
    ReflTransGen Unchecked (insertPoint handler p) (insertPoint handler q) := by
  induction hsteps with
  | refl => exact .refl
  | tail _ hstep ih =>
    exact .tail ih ⟨⟨false, edge_insert hstep.1⟩, fun hcheck =>
      hstep.2 (atCheck_insertPoint.1 hcheck)⟩

theorem bypassing_of_unchecked {p q' : Point δ}
    (hsteps : ReflTransGen Unchecked (insertPoint handler p) q') (hnext : ¬AtCheck q') :
    ∃ q, q' = insertPoint handler q ∧ ReflTransGen Bypassing p q := by
  induction hsteps with
  | refl => exact ⟨p, rfl, .refl⟩
  | tail _ hstep ih =>
    obtain ⟨q, rfl, hpath⟩ := ih hstep.2
    obtain ⟨r, rfl, hedge⟩ := unchecked_insertPoint hstep hnext
    exact ⟨r, rfl, .tail hpath ⟨hedge, fun hcheck =>
      hstep.2 (atCheck_insertPoint.2 hcheck)⟩⟩

theorem checkedExits_insertCheckAtLoop_iff (body : Mcexp δ) :
    CheckedExits (insertCheckAtLoop handler body) ↔ LoopBeforeExits body := by
  constructor
  · intro hchecked q hexit hpath
    exact hchecked (insertPoint handler q) (exit_insertPoint.2 hexit)
      (unchecked_of_bypassing hpath)
  · intro hloop q' hexit hpath
    obtain ⟨q, rfl, hpath'⟩ :=
      bypassing_of_unchecked (p := ⟨[], body⟩) hpath hexit.not_atCheck
    exact hloop q (exit_insertPoint.1 hexit) hpath'

theorem checkedExits_addCheck (body : Mcexp δ) : CheckedExits (addCheck handler body) := by
  intro q hexit hpath
  rcases ReflTransGen.cases_head hpath with rfl | ⟨r, hstep, -⟩
  · exact hexit.not_atCheck .mk
  · exact hstep.2 .mk

theorem occurs_addCheck_iff (body : Mcexp δ) (p : Point δ) :
    Occurs (addCheck handler body) p ↔ p = ⟨[], addCheck handler body⟩ ∨ Occurs body p := by
  obtain ⟨mids, last⟩ := body
  constructor
  · intro hoccurs
    induction hoccurs with
    | entry => exact Or.inl rfl
    | mid _ ih =>
      rcases ih with heq | hoccurs
      · cases heq
        exact Or.inr .entry
      · exact Or.inr (.mid hoccurs)
    | handlerNext _ ih =>
      rcases ih with heq | hoccurs
      · cases heq
      · exact Or.inr (.handlerNext hoccurs)
    | handlerExp _ ih =>
      rcases ih with heq | hoccurs
      · cases heq
      · exact Or.inr (.handlerExp hoccurs)
    | localNext _ ih =>
      rcases ih with heq | hoccurs
      · cases heq
      · exact Or.inr (.localNext hoccurs)
    | localBody _ ih =>
      rcases ih with heq | hoccurs
      · cases heq
      · exact Or.inr (.localBody hoccurs)
  · rintro (rfl | hoccurs)
    · exact .entry
    · induction hoccurs with
      | entry => exact .mid .entry
      | mid _ ih => exact .mid ih
      | handlerNext _ ih => exact .handlerNext ih
      | handlerExp _ ih => exact .handlerExp ih
      | localNext _ ih => exact .localNext ih
      | localBody _ ih => exact .localBody ih

theorem checkedLoops_addCheck_iff (body : Mcexp δ) :
    CheckedLoops (addCheck handler body) ↔ CheckedLoops body := by
  constructor
  · intro hchecked p hoccurs
    exact hchecked p ((occurs_addCheck_iff body p).2 (Or.inr hoccurs))
  · intro hchecked p hoccurs hcycle
    rcases (occurs_addCheck_iff body p).1 hoccurs with rfl | hoccurs
    · obtain ⟨q, hstep, -⟩ := TransGen.head'_iff.1 hcycle
      exact hstep.2 .mk
    · exact hchecked p hoccurs hcycle

/-! Without its checks the code is the given one. -/

mutual

def eraseChecks : Mcexp δ → Mcexp δ
  | .mk mids last =>
    .mk (mids.filter fun mid => match mid with
      | .mccheck _ => false
      | _ => true) (eraseChecksLast last)

def eraseChecksLast : McexpLast δ → McexpLast δ
  | .mchandler nextExp id args handlerExp cleanup =>
    .mchandler (eraseChecks nextExp) id args (eraseChecks handlerExp) cleanup
  | .mclocalcode id recursive args bodyExp nextExp =>
    .mclocalcode id recursive args (eraseChecks bodyExp) (eraseChecks nextExp)
  | .mcreturn args => .mcreturn args
  | .mcraise args cleanup => .mcraise args cleanup
  | .mcswitch args branches default => .mcswitch args branches default
  | .mcgoto id args => .mcgoto id args
  | .mcunreachable => .mcunreachable

end

theorem eraseChecks_addCheck (exp : Mcexp δ) :
    eraseChecks (addCheck handler exp) = eraseChecks exp := by
  cases exp
  rfl

mutual

theorem eraseChecks_insertCheckAtLoop : ∀ exp : Mcexp δ,
    eraseChecks (insertCheckAtLoop handler exp) = eraseChecks exp
  | .mk mids last => by
      rw [insertCheckAtLoop, eraseChecks, eraseChecks, eraseChecks_insertCheckAtLast last]

theorem eraseChecks_insertCheckAtLast : ∀ last : McexpLast δ,
    eraseChecksLast (insertCheckAtLast handler last) = eraseChecksLast last
  | .mchandler nextExp id args handlerExp cleanup => by
      simp only [insertCheckAtLast, eraseChecksLast, eraseChecks_insertCheckAtLoop nextExp,
        eraseChecks_insertCheckAtLoop handlerExp]
  | .mclocalcode id recursive args bodyExp nextExp => by
      cases recursive with
      | true =>
        simp only [insertCheckAtLast, eraseChecksLast, if_true, eraseChecks_addCheck,
          eraseChecks_insertCheckAtLoop bodyExp, eraseChecks_insertCheckAtLoop nextExp]
      | false =>
        simp only [insertCheckAtLast, eraseChecksLast, Bool.false_eq_true, if_false,
          eraseChecks_insertCheckAtLoop bodyExp, eraseChecks_insertCheckAtLoop nextExp]
  | .mcreturn _ => rfl
  | .mcraise _ _ => rfl
  | .mcswitch _ _ _ => rfl
  | .mcgoto _ _ => rfl
  | .mcunreachable => rfl

end

/-! Checks do not change the two tests of `compileBody`. -/

theorem hasCall_addCheck (exp : Mcexp δ) : hasCall (addCheck handler exp) = hasCall exp := by
  cases exp
  rfl

mutual

theorem hasCall_insertCheckAtLoop : ∀ exp : Mcexp δ,
    hasCall (insertCheckAtLoop handler exp) = hasCall exp
  | .mk mids last => by
      rw [insertCheckAtLoop, hasCall, hasCall, hasCall_insertCheckAtLast last]

theorem hasCall_insertCheckAtLast : ∀ last : McexpLast δ,
    hasCallLast (insertCheckAtLast handler last) = hasCallLast last
  | .mchandler nextExp id args handlerExp cleanup => by
      simp only [insertCheckAtLast, hasCallLast, hasCall_insertCheckAtLoop nextExp,
        hasCall_insertCheckAtLoop handlerExp]
  | .mclocalcode id recursive args bodyExp nextExp => by
      cases recursive with
      | true =>
        simp only [insertCheckAtLast, hasCallLast, if_true, hasCall_addCheck,
          hasCall_insertCheckAtLoop bodyExp, hasCall_insertCheckAtLoop nextExp]
      | false =>
        simp only [insertCheckAtLast, hasCallLast, Bool.false_eq_true, if_false,
          hasCall_insertCheckAtLoop bodyExp, hasCall_insertCheckAtLoop nextExp]
  | .mcreturn _ => rfl
  | .mcraise _ _ => rfl
  | .mcswitch _ _ _ => rfl
  | .mcgoto _ _ => rfl
  | .mcunreachable => rfl

end

theorem reachableToLoop_insertCheckAtLoop (blocks : Scope δ) (exp : Mcexp δ) :
    reachableToLoop (insertScope handler blocks) (insertCheckAtLoop handler exp) =
      reachableToLoop blocks exp := by
  induction blocks, exp using reachableToLoop.induct with
  | case1 | case2 | case3 | case7 =>
    simp only [insertCheckAtLoop, insertCheckAtLast, reachableToLoop]
  | case4 blocks mids id args hnone =>
    rw [insertCheckAtLoop, insertCheckAtLast, reachableToLoop_goto, reachableToLoop_goto,
      findLabel_insertScope, hnone]
    rfl
  | case5 blocks mids id args target hfind =>
    rw [insertCheckAtLoop, insertCheckAtLast, reachableToLoop_goto, reachableToLoop_goto,
      findLabel_insertScope, hfind]
    rfl
  | case6 blocks mids id args target hfind ih =>
    rw [insertCheckAtLoop, insertCheckAtLast, reachableToLoop_goto, reachableToLoop_goto,
      findLabel_insertScope, hfind]
    exact ih
  | case8 blocks mids nextExp id args handlerExp cleanup ih =>
    rw [insertCheckAtLoop, insertCheckAtLast, reachableToLoop, reachableToLoop]
    exact ih
  | case9 blocks mids id recursive args bodyExp nextExp ih =>
    rw [insertCheckAtLoop, insertCheckAtLast, reachableToLoop, reachableToLoop]
    exact ih

/-! Bodies and programs. -/

/-- The checks cover the body, and the body is otherwise unchanged. -/
structure Covered (body out : Mcexp δ) : Prop where
  loops : CheckedLoops out
  exits : hasCall body = true → CheckedExits out
  unchanged : eraseChecks out = eraseChecks body

/-- When the checks cover a body with calls: the line from its entry comes to a
loop and no exception leads past the loops to an exit, or the line does not and
there is no loop without a check. -/
def CoveredWhen (body : Mcexp δ) : Prop :=
  hasCall body = true →
    (reachableToLoop [] body = .ok true → LoopBeforeExits body) ∧
      (reachableToLoop [] body = .ok false → CheckedLoops body)

theorem compileBody_covered_iff {body out : Mcexp δ}
    (hcompile : compileBody handler body = .ok out) :
    Covered body out ↔ CoveredWhen body := by
  have hreach : reachableToLoop [] (insertCheckAtLoop handler body) =
      reachableToLoop [] body := reachableToLoop_insertCheckAtLoop [] body
  rw [compileBody, except_bind_ok] at hcompile
  obtain ⟨reachable, hreachable, hcompile⟩ := hcompile
  rw [hreach] at hreachable
  rw [hasCall_insertCheckAtLoop] at hcompile
  cases reachable with
  | true =>
    obtain rfl := except_pure_ok.1 hcompile
    constructor
    · intro hcovered hcall
      refine ⟨fun _ => ?_, fun hfalse => ?_⟩
      · exact (checkedExits_insertCheckAtLoop_iff body).1 (hcovered.exits hcall)
      · rw [hreachable] at hfalse
        cases hfalse
    · intro hwhen
      exact ⟨checkedLoops_insertCheckAtLoop body, fun hcall =>
        (checkedExits_insertCheckAtLoop_iff body).2 ((hwhen hcall).1 hreachable),
        eraseChecks_insertCheckAtLoop body⟩
  | false =>
    cases hcall : hasCall body with
    | false =>
      rw [hcall] at hcompile
      obtain rfl := except_pure_ok.1 hcompile
      refine ⟨fun _ htrue => ?_, fun _ => ⟨checkedLoops_insertCheckAtLoop body,
        fun htrue => ?_, eraseChecks_insertCheckAtLoop body⟩⟩
      · rw [hcall] at htrue
        cases htrue
      · rw [hcall] at htrue
        cases htrue
    | true =>
      rw [hcall] at hcompile
      obtain rfl := except_pure_ok.1 hcompile
      constructor
      · intro hcovered _
        refine ⟨fun htrue => ?_, fun _ =>
          (checkedLoops_addCheck_iff body).1 hcovered.loops⟩
        rw [hreachable] at htrue
        cases htrue
      · intro hwhen
        exact ⟨(checkedLoops_addCheck_iff body).2 ((hwhen hcall).2 hreachable),
          fun _ => checkedExits_addCheck body, eraseChecks_addCheck body⟩

/-- What the pass does to a top-level declaration whose checks cover it. -/
def TopdecCovered : Topdec δ → Topdec δ → Prop
  | .mtfunction args bodyExp gcCheck, .mtfunction args' out gcCheck' =>
    args' = args ∧ gcCheck' = false ∧
      if gcCheck then Covered bodyExp out else out = bodyExp
  | .mtcallbackfunction args bodyExp cleanupHandler,
    .mtcallbackfunction args' out cleanupHandler' =>
      args' = args ∧ cleanupHandler' = cleanupHandler ∧ Covered bodyExp out
  | _, _ => False

structure ProgramCovered (program program' : Program δ) : Prop where
  topdata : program'.topdata = program.topdata
  topdecs : List.Forall₂ TopdecCovered program.topdecs program'.topdecs
  frameSlots : program'.toplevel.frameSlots = program.toplevel.frameSlots
  cleanupHandler : program'.toplevel.cleanupHandler = program.toplevel.cleanupHandler
  toplevel : Covered program.toplevel.bodyExp program'.toplevel.bodyExp

def TopdecCoveredWhen : Topdec δ → Prop
  | .mtfunction _ bodyExp gcCheck => gcCheck = true → CoveredWhen bodyExp
  | .mtcallbackfunction _ bodyExp _ => CoveredWhen bodyExp

theorem compileTopdec_covered_iff {topdec topdec' : Topdec δ}
    (hcompile : compileTopdec topdec = .ok topdec') :
    TopdecCovered topdec topdec' ↔ TopdecCoveredWhen topdec := by
  cases topdec with
  | mtfunction args bodyExp gcCheck =>
    cases gcCheck with
    | false =>
      obtain rfl := Except.ok.inj hcompile
      simp [TopdecCovered, TopdecCoveredWhen]
    | true =>
      rw [compileTopdec, if_pos rfl, except_bind_ok] at hcompile
      obtain ⟨out, hbody, hcompile⟩ := hcompile
      obtain rfl := except_pure_ok.1 hcompile
      simp only [TopdecCovered, TopdecCoveredWhen, true_and, if_true, forall_const]
      exact compileBody_covered_iff hbody
  | mtcallbackfunction args bodyExp cleanupHandler =>
    rw [compileTopdec, except_bind_ok] at hcompile
    obtain ⟨out, hbody, hcompile⟩ := hcompile
    obtain rfl := except_pure_ok.1 hcompile
    simp only [TopdecCovered, TopdecCoveredWhen, true_and]
    exact compileBody_covered_iff hbody

theorem compileTopdecs_covered_iff {topdecs topdecs' : List (Topdec δ)}
    (hcompile : topdecs.mapM compileTopdec = .ok topdecs') :
    List.Forall₂ TopdecCovered topdecs topdecs' ↔
      ∀ topdec ∈ topdecs, TopdecCoveredWhen topdec := by
  induction topdecs generalizing topdecs' with
  | nil =>
    obtain rfl := except_pure_ok.1 hcompile
    simp
  | cons topdec topdecs ih =>
    rw [List.mapM_cons, except_bind_ok] at hcompile
    obtain ⟨topdec', hfirst, hcompile⟩ := hcompile
    rw [except_bind_ok] at hcompile
    obtain ⟨rest, hrest, hcompile⟩ := hcompile
    obtain rfl := except_pure_ok.1 hcompile
    rw [List.forall₂_cons, compileTopdec_covered_iff hfirst, ih hrest, List.forall_mem_cons]

/-- The checks cover a program when every body that gets checks meets the
condition. -/
theorem insertCheckGC_covered_iff {program program' : Program δ}
    (hcompile : insertCheckGC program = .ok program') :
    ProgramCovered program program' ↔
      (∀ topdec ∈ program.topdecs, TopdecCoveredWhen topdec) ∧
        CoveredWhen program.toplevel.bodyExp := by
  rw [insertCheckGC, except_bind_ok] at hcompile
  obtain ⟨topdecs', htopdecs, hcompile⟩ := hcompile
  rw [except_bind_ok] at hcompile
  obtain ⟨toplevel', htoplevel, hcompile⟩ := hcompile
  obtain rfl := except_pure_ok.1 hcompile
  rw [compileToplevel, except_bind_ok] at htoplevel
  obtain ⟨out, hbody, htoplevel⟩ := htoplevel
  obtain rfl := except_pure_ok.1 htoplevel
  rw [← compileTopdecs_covered_iff htopdecs, ← compileBody_covered_iff hbody]
  exact ⟨fun hcovered => ⟨hcovered.topdecs, hcovered.toplevel⟩,
    fun hcovered => ⟨rfl, hcovered.1, rfl, rfl, hcovered.2⟩⟩

section LoopBehindSwitch

/-- A call, and behind a switch a loop without calls. -/
def loopBehindSwitch : Mcexp Unit :=
  .mk [.mccall () none]
    (.mclocalcode 0 true () (.mk [] (.mcgoto 0 ()))
      (.mk [] (.mclocalcode 1 false () (.mk [] (.mcreturn ()))
        (.mk [] (.mcswitch () [((), 0)] 1)))))

def loopBehindSwitchProgram : Program Unit where
  topdata := ()
  topdecs := [.mtfunction () loopBehindSwitch true]
  toplevel := ⟨(), .mk [] (.mcreturn ()), none⟩

/-- The pass returns the function with one check, at its entry. -/
def loopBehindSwitchChecked : Program Unit where
  topdata := ()
  topdecs := [.mtfunction () (addCheck none loopBehindSwitch) false]
  toplevel := ⟨(), .mk [] (.mcreturn ()), none⟩

theorem compileBody_loopBehindSwitch :
    compileBody none loopBehindSwitch = .ok (addCheck none loopBehindSwitch) := by
  have hreach : reachableToLoop [] (insertCheckAtLoop none loopBehindSwitch) =
      .ok false := by
    simp only [loopBehindSwitch, insertCheckAtLoop, insertCheckAtLast, reachableToLoop]
  rw [compileBody, hreach]
  rfl

theorem compileBody_return :
    compileBody none (.mk [] (.mcreturn ()) : Mcexp Unit) = .ok (.mk [] (.mcreturn ())) := by
  have hreach : reachableToLoop [] (.mk [] (.mcreturn ()) : Mcexp Unit) = .ok false := by
    simp only [reachableToLoop]
  rw [compileBody, insertCheckAtLoop, insertCheckAtLast, hreach]
  rfl

theorem insertCheckGC_loopBehindSwitch :
    insertCheckGC loopBehindSwitchProgram = .ok loopBehindSwitchChecked := by
  have htopdec : compileTopdec (.mtfunction () loopBehindSwitch true) =
      .ok (.mtfunction () (addCheck none loopBehindSwitch) false) := by
    rw [compileTopdec, if_pos rfl, compileBody_loopBehindSwitch]
    rfl
  rw [insertCheckGC, compileToplevel]
  simp only [loopBehindSwitchProgram, List.mapM_cons, List.mapM_nil, htopdec,
    compileBody_return]
  rfl

/-- The program in which a loop stands behind the switch of a function, which
meets neither side. -/
theorem insertCheckGC_covered_iff_loopBehindSwitch :
    ProgramCovered loopBehindSwitchProgram loopBehindSwitchChecked ↔
      (∀ topdec ∈ loopBehindSwitchProgram.topdecs, TopdecCoveredWhen topdec) ∧
        CoveredWhen loopBehindSwitchProgram.toplevel.bodyExp :=
  insertCheckGC_covered_iff insertCheckGC_loopBehindSwitch

/-- The loop runs without a check. -/
theorem loopBehindSwitch_unchecked :
    insertCheckGC loopBehindSwitchProgram = .ok loopBehindSwitchChecked ∧
      ¬ProgramCovered loopBehindSwitchProgram loopBehindSwitchChecked := by
  refine ⟨insertCheckGC_loopBehindSwitch, fun hcovered => ?_⟩
  have hfunction := (List.forall₂_cons.1 hcovered.topdecs).1
  have hloops : CheckedLoops (addCheck none loopBehindSwitch) := hfunction.2.2.loops
  refine hloops ⟨[.localcode 0 true (.mk [] (.mcgoto 0 ()))], .mk [] (.mcgoto 0 ())⟩ ?_ ?_
  · have hmid : Occurs (addCheck none loopBehindSwitch) ⟨[], .mk [] loopBehindSwitch.last⟩ :=
      .mid (.mid .entry)
    exact .localBody hmid
  · refine .single ⟨⟨true, .goto rfl⟩, fun hcheck => ?_⟩
    cases hcheck

end LoopBehindSwitch

end ConcurrencySupport

end SmlSharp
