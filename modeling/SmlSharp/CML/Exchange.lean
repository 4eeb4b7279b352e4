/-
The two sides of a rendezvous, and the rule for all steps of a thread.
-/
import SmlSharp.CML.Steps

namespace SmlSharp.CML

open Couple (Store)


variable {α : Type} [Values α] {m m' : Shared α} {i g : Nat} {stack : List (Frame α)}
  {out : Outcome α}

theorem Sending.unwinds {c : Nat} {v : α} (h : Sending m i stack c v g) :
    Unwinds m i stack := by
  obtain ⟨_, offers, _, _, _, hawaits⟩ := h
  exact .inl ⟨offers, g, hawaits⟩

theorem Receiving.unwinds {n : Nat} (h : Receiving m i stack n g) : Unwinds m i stack := by
  obtain ⟨_, offers, _, _, _, hawaits⟩ := h
  exact .inl ⟨offers, g, hawaits⟩

/-- What a thread reads from its variable at a pipe is what both sides have put there. -/
theorem exchanged_of_left {c k d : Nat} {v : α} {p : Option α × Bool} (hok : m.Ok)
    (hcall : m.pipes.lefts[k]? = some ⟨c, some v, ()⟩) (hat : m.pipes.LeftAt d k)
    (hvar : m.pipes.var d = some p) : m.Exchanged c (some v) p.2 := by
  obtain ⟨n, l, r, ⟨d', hagreed⟩, hl, hr, rfl⟩ := hok.pipes.left_get hat hvar
  obtain ⟨-, l', r', hl', hr', hcouple⟩ := hok.pipes.agreed_calls hagreed
  simp only [hl, Option.some.injEq] at hl'
  simp only [hr, Option.some.injEq] at hr'
  subst hl' hr'
  rw [hcall, Option.some.injEq] at hl
  subst hl
  exact ⟨k, n, _, r, ⟨d', hagreed⟩, hcall, hr, rfl, hcouple.symm, rfl, rfl⟩

theorem exchanged_of_right {c n k d : Nat} {p : Option α × Bool} (hok : m.Ok)
    (hcall : m.pipes.rights[k]? = some ⟨c, true, n⟩) (hat : m.pipes.RightAt d k)
    (hvar : m.pipes.var d = some p) : m.Exchanged c p.1 true := by
  obtain ⟨k', l, r, ⟨d', hagreed⟩, hl, hr, rfl⟩ := hok.pipes.right_get hat hvar
  obtain ⟨-, l', r', hl', hr', hcouple⟩ := hok.pipes.agreed_calls hagreed
  simp only [hl, Option.some.injEq] at hl'
  simp only [hr, Option.some.injEq] at hr'
  subst hl' hr'
  rw [hcall, Option.some.injEq] at hr
  subst hr
  exact ⟨k', k, l, _, ⟨d', hagreed⟩, hl, hcall, hcouple, rfl, rfl, rfl⟩

theorem sendPaired_good {call d : Nat} {owed : Option (Nat × Unit)} {v : α} (hok : m.Ok)
    (h : (Control.sendPaired call d owed v g).Ok m i stack)
    (hstep : act i m ⟨.sendPaired call d owed v g, stack⟩ = some out) : Good i m out := by
  obtain ⟨hsending, hat, howed, hno⟩ := h
  cases owed with
  | some p =>
    have hadds : Adds i m { m with chans := m.chans.set d p } :=
      adds_setChan hok (howed p rfl)
    exact hadds.goto hok hstep ⟨hsending.mono hadds.grows (quiet_of_gates rfl),
      hadds.grows.chans.leftAt hat, nofun, hno⟩
  | none =>
    simp only [act, Option.bind_eq_bind, Option.bind_eq_some_iff] at hstep
    obtain ⟨⟨c, u⟩, hvar, hgoto⟩ := hstep
    obtain ⟨n, l, r, hagreed, hl, -, hp⟩ := hok.chans.left_get hat hvar
    have hc : c = call := (congrArg Prod.fst hp).trans (hok.pipe hl)
    subst hc
    exact Good.stay hok hgoto ⟨hsending, ⟨n, hagreed⟩, hno⟩

theorem sendGate_good {c : Nat} {v : α} (hok : m.Ok)
    (h : (Control.sendGate c v g).Ok m i stack)
    (hstep : act i m ⟨.sendGate c v g, stack⟩ = some out) : Good i m out := by
  obtain ⟨hsending, hagreed, hno⟩ := h
  obtain ⟨l, -, hl, hinfo, -⟩ := id hsending
  have hattempt : m.AttemptOk g (.send c) := ⟨l, hl, by rw [hinfo]⟩
  refine passGate_good hok hattempt hstep ?_ ?_
  · intro hadds hholds hquiet
    exact ⟨hsending.mono hadds.grows hquiet, hagreed, hno, hholds⟩
  · exact ⟨hsending.unwinds, ⟨l, hl, by rw [hinfo]⟩, hagreed, hno⟩

theorem sendNone_good {c : Nat} (hok : m.Ok) (h : (Control.sendNone c).Ok m i stack)
    (hstep : act i m ⟨.sendNone c, stack⟩ = some out) : Good i m out := by
  obtain ⟨hunwinds, ⟨l, hl, hthread⟩, hagreed, hno⟩ := h
  simp only [act, Option.bind_eq_bind, Option.bind_eq_some_iff] at hstep
  obtain ⟨⟨pipes, d, owed⟩, hleft, hgoto⟩ := hstep
  have hadds := adds_leftPipe hok hleft hno ⟨hagreed, nofun⟩ hl hthread
  refine hadds.goto hok hgoto ⟨hunwinds.mono hadds.grows (quiet_of_gates rfl), ?_⟩
  rintro p rfl
  exact hok.pipes.left_belongs hleft

theorem sendSome_good {c : Nat} {v : α} (hok : m.Ok)
    (h : (Control.sendSome c v g).Ok m i stack)
    (hstep : act i m ⟨.sendSome c v g, stack⟩ = some out) : Good i m out := by
  obtain ⟨hsending, hagreed, hno, hholds⟩ := h
  obtain ⟨l, -, hl, hinfo, -⟩ := id hsending
  simp only [act, Option.bind_eq_bind, Option.bind_eq_some_iff] at hstep
  obtain ⟨⟨pipes, d, owed⟩, hleft, hgoto⟩ := hstep
  have hmove : m.LeftMove ⟨c, some v, ()⟩ := by
    refine ⟨hagreed, ?_⟩
    rintro w hw
    cases hw
    exact ⟨l, hl, by rw [hinfo], by rw [hinfo]; exact hholds⟩
  have hadds := adds_leftPipe hok hleft hno hmove hl (by rw [hinfo])
  refine hadds.goto hok hgoto ⟨hsending.mono hadds.grows (quiet_of_gates rfl), hholds, ?_,
    Store.left_at hleft, ?_⟩
  · simp only [(Store.left_calls hleft).1, List.getElem?_concat_length]
  · rintro p rfl
    exact hok.pipes.left_belongs hleft

theorem sendSettle_good {c call d : Nat} {owed : Option (Option α × Bool)} {v : α}
    (hok : m.Ok) (h : (Control.sendSettle c call d owed v g).Ok m i stack)
    (hstep : act i m ⟨.sendSettle c call d owed v g, stack⟩ = some out) : Good i m out := by
  obtain ⟨hsending, hholds, hcall, hat, howed⟩ := h
  cases owed with
  | some p =>
    have hadds : Adds i m { m with pipes := m.pipes.set d p } :=
      adds_setPipe hok (howed p rfl)
    exact hadds.goto hok hstep ⟨hsending.mono hadds.grows (quiet_of_gates rfl), hholds,
      hadds.grows.pipes.lefts hcall, hadds.grows.pipes.leftAt hat, nofun⟩
  | none =>
    simp only [act, Option.bind_eq_bind, Option.bind_eq_some_iff] at hstep
    obtain ⟨⟨sent, received⟩, hvar, hgoto⟩ := hstep
    have hexchanged : m.Exchanged c (some v) received :=
      exchanged_of_left hok hcall hat hvar
    obtain ⟨l, offers, hl, hinfo, hoffers, hawaits⟩ := hsending
    refine Good.stay hok hgoto ⟨offers, g, ?_, hawaits⟩
    cases received with
    | false => exact ⟨.send c, hholds, some v, false, hexchanged, .inr rfl⟩
    | true =>
      have hbase : m.IsBase (.send c) (.send l.couple l.info.value) := .send hl
      rw [hinfo] at hbase
      exact ⟨.send c, Values.unit, .send l.couple v, hholds, ⟨⟨v, hexchanged⟩, rfl⟩,
        hbase, hoffers _⟩

theorem recvPaired_good {call d : Nat} {owed : Option (Nat × Unit)} (hok : m.Ok)
    (h : (Control.recvPaired call d owed g).Ok m i stack)
    (hstep : act i m ⟨.recvPaired call d owed g, stack⟩ = some out) : Good i m out := by
  obtain ⟨hreceiving, hat, howed, hno⟩ := h
  cases owed with
  | some p =>
    have hadds : Adds i m { m with chans := m.chans.set d p } :=
      adds_setChan hok (howed p rfl)
    exact hadds.goto hok hstep ⟨hreceiving.mono hadds.grows (quiet_of_gates rfl),
      hadds.grows.chans.rightAt hat, nofun, hno⟩
  | none =>
    simp only [act, Option.bind_eq_bind, Option.bind_eq_some_iff] at hstep
    obtain ⟨⟨c, u⟩, hvar, hgoto⟩ := hstep
    obtain ⟨c', l, r, hagreed, hl, -, hp⟩ := hok.chans.right_get hat hvar
    have hc : c = c' := (congrArg Prod.fst hp).trans (hok.pipe hl)
    subst hc
    exact Good.stay hok hgoto ⟨hreceiving, hagreed, hno⟩

theorem recvGate_good {c call : Nat} (hok : m.Ok)
    (h : (Control.recvGate c call g).Ok m i stack)
    (hstep : act i m ⟨.recvGate c call g, stack⟩ = some out) : Good i m out := by
  obtain ⟨hreceiving, hagreed, hno⟩ := h
  obtain ⟨r, -, hr, hinfo, -⟩ := id hreceiving
  have hattempt : m.AttemptOk g (.recv c call) := ⟨hagreed, r, hr, by rw [hinfo]⟩
  refine passGate_good hok hattempt hstep ?_ ?_
  · intro hadds hholds hquiet
    exact ⟨hreceiving.mono hadds.grows hquiet, hagreed, hno, hholds⟩
  · exact ⟨hreceiving.unwinds, ⟨r, hr, by rw [hinfo]⟩, hagreed, hno⟩

theorem recvFalse_good {c call : Nat} (hok : m.Ok)
    (h : (Control.recvFalse c call).Ok m i stack)
    (hstep : act i m ⟨.recvFalse c call, stack⟩ = some out) : Good i m out := by
  obtain ⟨hunwinds, ⟨r, hr, hthread⟩, hagreed, hno⟩ := h
  simp only [act, Option.bind_eq_bind, Option.bind_eq_some_iff] at hstep
  obtain ⟨⟨pipes, d, owed⟩, hright, hgoto⟩ := hstep
  have hadds := adds_rightPipe hok hright hno ⟨hagreed, nofun⟩ hr hthread
  refine hadds.goto hok hgoto ⟨hunwinds.mono hadds.grows (quiet_of_gates rfl), ?_⟩
  rintro p rfl
  exact hok.pipes.right_belongs hright

theorem recvTrue_good {c call : Nat} (hok : m.Ok)
    (h : (Control.recvTrue c call g).Ok m i stack)
    (hstep : act i m ⟨.recvTrue c call g, stack⟩ = some out) : Good i m out := by
  obtain ⟨hreceiving, hagreed, hno, hholds⟩ := h
  obtain ⟨r, -, hr, hinfo, -⟩ := id hreceiving
  simp only [act, Option.bind_eq_bind, Option.bind_eq_some_iff] at hstep
  obtain ⟨⟨pipes, d, owed⟩, hright, hgoto⟩ := hstep
  have hmove : m.RightMove ⟨c, true, call⟩ :=
    ⟨hagreed, fun _ => ⟨r, hr, by rw [hinfo]; exact hholds⟩⟩
  have hadds := adds_rightPipe hok hright hno hmove hr (by rw [hinfo])
  refine hadds.goto hok hgoto ⟨hreceiving.mono hadds.grows (quiet_of_gates rfl), hholds, ?_,
    Store.right_at hright, ?_⟩
  · simp only [(Store.right_calls hright).1, List.getElem?_concat_length]
  · rintro p rfl
    exact hok.pipes.right_belongs hright

theorem recvSettle_good {c call k d : Nat} {owed : Option (Option α × Bool)} (hok : m.Ok)
    (h : (Control.recvSettle c call k d owed g).Ok m i stack)
    (hstep : act i m ⟨.recvSettle c call k d owed g, stack⟩ = some out) : Good i m out := by
  obtain ⟨hreceiving, hholds, hcall, hat, howed⟩ := h
  cases owed with
  | some p =>
    have hadds : Adds i m { m with pipes := m.pipes.set d p } :=
      adds_setPipe hok (howed p rfl)
    exact hadds.goto hok hstep ⟨hreceiving.mono hadds.grows (quiet_of_gates rfl), hholds,
      hadds.grows.pipes.rights hcall, hadds.grows.pipes.rightAt hat, nofun⟩
  | none =>
    simp only [act, Option.bind_eq_bind, Option.bind_eq_some_iff] at hstep
    obtain ⟨⟨sent, received⟩, hvar, hgoto⟩ := hstep
    have hexchanged : m.Exchanged c sent true := exchanged_of_right hok hcall hat hvar
    obtain ⟨r, offers, hr, -, hoffers, hawaits⟩ := hreceiving
    refine Good.stay hok hgoto ⟨offers, g, ?_, hawaits⟩
    cases sent with
    | none => exact ⟨.recv c call, hholds, none, true, hexchanged, .inl rfl⟩
    | some v =>
      exact ⟨.recv c call, v, .recv r.couple, hholds, hexchanged, .recv hr, hoffers v⟩

/-- The rest of a call of `left` or `right` before `raise Kill`. -/
theorem kill_good {d : Nat} {owed : Option (Option α × Bool)}
    (hok : m.Ok) (hunwinds : Unwinds m i stack)
    (howed : ∀ p, owed = some p → m.pipes.Belongs d p) (next : Control α)
    (hnext : ∀ m', Unwinds m' i stack → next.Ok m' i stack)
    (hstep : (match owed with
      | some p => goto { m with pipes := m.pipes.set d p } next stack
      | none => goto m .raise stack) = some out) : Good i m out := by
  cases owed with
  | some p =>
    have hadds : Adds i m { m with pipes := m.pipes.set d p } :=
      adds_setPipe hok (howed p rfl)
    exact hadds.goto hok hstep
      (hnext _ (hunwinds.mono hadds.grows (quiet_of_gates rfl)))
  | none => exact Good.stay hok hstep hunwinds

/-- Every step keeps the invariants. -/
theorem keeps : ThreadPool.Keeps Shared.Ok (fun m i thread => thread.Ok m i) Changes
    (act (α := α)) := by
  intro i m thread m' thread' created hok h hact
  suffices hgood : Good i m (m', thread', created) from
    ⟨hgood.ok, hgood.thread, hgood.spawned, hgood.changes⟩
  obtain ⟨control, stack⟩ := thread
  have hcontrol : control.Ok m i stack := h
  cases control with
  | proc p => exact procStep_good hok hcontrol hact
  | eval e g =>
    obtain ⟨event, pass, offers, hprepared, hgate, hsub, hawaits⟩ := hcontrol
    exact evalStep_good hok hprepared hgate (hawaits.weaken hsub) hact
  | value res =>
    obtain ⟨offers, g, hresult, hawaits⟩ := hcontrol
    exact valueStep_good hok hresult hawaits hact
  | raise => exact raiseStep_good hok hcontrol hact
  | halt => cases hact
  | prepared e =>
    obtain ⟨k, pass, ids, f, rfl, hinfo, hfuture⟩ := hcontrol
    have hadds : Adds i m { m with futures := m.futures.write k e } :=
      adds_setFuture hok hinfo hfuture
    exact hadds.goto hok hact trivial
  | choosing ret =>
    obtain ⟨g, events, hinfo, hawaits⟩ := hcontrol
    simp only [act, Option.bind_eq_bind, Option.bind_eq_some_iff] at hact
    obtain ⟨res, hread, hgoto⟩ := hact
    exact Good.stay hok hgoto
      ⟨_, g, hok.ret hinfo (Cells.holds_of_read hread), hawaits⟩
  | sendPaired call d owed v g => exact sendPaired_good hok hcontrol hact
  | sendGate c v g => exact sendGate_good hok hcontrol hact
  | sendNone c => exact sendNone_good hok hcontrol hact
  | sendSome c v g => exact sendSome_good hok hcontrol hact
  | sendKill d owed =>
    refine kill_good hok hcontrol.1 hcontrol.2 (.sendKill d none)
      (fun m' h => ⟨h, nofun⟩) ?_
    cases owed <;> exact hact
  | sendSettle c call d owed v g => exact sendSettle_good hok hcontrol hact
  | recvPaired call d owed g => exact recvPaired_good hok hcontrol hact
  | recvGate c call g => exact recvGate_good hok hcontrol hact
  | recvFalse c call => exact recvFalse_good hok hcontrol hact
  | recvTrue c call g => exact recvTrue_good hok hcontrol hact
  | recvKill d owed =>
    refine kill_good hok hcontrol.1 hcontrol.2 (.recvKill d none)
      (fun m' h => ⟨h, nofun⟩) ?_
    cases owed <;> exact hact
  | recvSettle c call k d owed g => exact recvSettle_good hok hcontrol hact
  | nackGate pass self g =>
    obtain ⟨ids, offers, hholds, hself, hoffers, hawaits⟩ := hcontrol
    have hattempt : m.AttemptOk g (.nack pass self) := ⟨ids, hholds, hself⟩
    refine passGate_good hok hattempt hact ?_ (.inl ⟨offers, g, hawaits⟩)
    intro hadds hholds' hquiet
    exact ⟨offers, g, ⟨.nack pass self, Values.unit, .nack pass self, hholds', rfl, .nack,
      hoffers _⟩, hawaits.mono hadds.grows hquiet⟩

end SmlSharp.CML
