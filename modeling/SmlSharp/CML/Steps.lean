/-
Every step of a thread keeps the invariant of the shared data and what holds of the
thread.
-/
import SmlSharp.CML.Apply

namespace SmlSharp.CML

open Couple (Store)


variable {α : Type} [Values α] {m m' : Shared α} {i g : Nat} {stack : List (Frame α)}
  {offers offers' : Base α → α → α → Prop} {control : Control α} {out : Outcome α}

/-- The outcome of a step is as it has to be. -/
structure Good (i : Nat) (m : Shared α) (out : Outcome α) : Prop where
  ok : out.1.Ok
  thread : out.2.1.Ok out.1 i
  spawned : ∀ thread ∈ out.2.2, ∀ j, thread.Ok out.1 j
  changes : Changes i m out.1

theorem Adds.goto (hadds : Adds i m m') (hok : m.Ok) (h : goto m' control stack = some out)
    (hcontrol : control.Ok m' i stack) : Good i m out := by
  cases h
  exact ⟨hadds.ok hok, hcontrol, nofun, hadds.changes⟩

theorem Good.stay (hok : m.Ok) (h : CML.goto m control stack = some out)
    (hcontrol : control.Ok m i stack) : Good i m out :=
  (Adds.refl hok).goto hok h hcontrol

omit [Values α] in
theorem quiet_of_gates (hgates : m'.gates = m.gates) : ∀ q ∈ loops stack, Quiet m m' q := by
  intro q _ g hinfo
  rwa [hgates] at hinfo

/-- A stack that awaits a result also awaits that of something with fewer offers. -/
theorem Awaits.weaken (h : Awaits m i stack offers g)
    (hsub : ∀ b u v, offers' b u v → offers b u v) : Awaits m i stack offers' g := by
  induction stack generalizing offers offers' g with
  | nil => exact h.elim
  | cons frame stack ih =>
    cases frame with
    | map f =>
      obtain ⟨wrapped, hwrap, hawaits⟩ := h
      exact ⟨wrapped, fun b u v w hb => hwrap b u v w (hsub b u v hb), hawaits⟩
    | some => exact h.elim
    | pass pass ids => exact ⟨h.1, ih h.2 hsub⟩
    | ret ret =>
      obtain ⟨hnil, events, hinfo, hret⟩ := h
      exact ⟨hnil, events, hinfo, fun b u v hb => hret b u v (hsub b u v hb)⟩
    | loop ev pass next =>
      obtain ⟨event, hloop, hevent, hnext⟩ := h
      exact ⟨event, hloop, fun b u v hb => hevent b u v (hsub b u v hb), hnext⟩
    | future k pass ids => exact h.elim

/-- A process that may come to less takes the place of another one. -/
theorem Continues.weaken {p p' : Proc α} (h : Continues m i stack p)
    (hsub : ∀ q, p'.Leads q → p.Leads q) : Continues m i stack p' := by
  cases stack with
  | nil => trivial
  | cons frame stack =>
    cases frame with
    | some =>
      obtain ⟨offers, g, hresult, hawaits⟩ := h
      exact ⟨offers, g, fun w hw => hresult w (hsub _ hw), hawaits⟩
    | future k pass ids =>
      obtain ⟨hnil, f, hinfo, hleads⟩ := h
      exact ⟨hnil, f, hinfo, fun event hevent => hleads event (hsub _ hevent)⟩
    | _ => exact h.elim

/-- A call of `sync` calls its event with a new gate. -/
theorem enter_good {event : Event α} {ev : Ready α} {pass : Nat} {next : Option α → Proc α}
    {spawned : List (Thread α)} (hok : m.Ok) (hsync : m.syncs.Info pass ⟨event, i⟩)
    (hprepared : Prepared m.futures pass ev event)
    (hdead : ∀ g, m.gates.Info g pass → m.Dead g) (holder : ∀ q ∈ loops stack, q < pass)
    (hnext : ∀ res, Continues m i stack (next res))
    (hspawned : ∀ thread ∈ spawned, ∃ k f ids, m.futures.Info k ⟨f, pass⟩ ∧
      thread = ⟨.proc f, [.future k pass ids]⟩)
    (h : m.enter ev pass next stack spawned = some out) : Good i m out := by
  have hadds := adds_enter hok hsync hdead
  have hquiet : ∀ q ∈ loops stack, Quiet m { m with gates := m.gates.create pass } q := by
    intro q hq g hinfo
    rcases hinfo.of_create with hold | ⟨-, heq⟩
    · exact hold
    · exact absurd heq (Nat.ne_of_lt (holder q hq))
  cases h
  refine ⟨hadds.ok hok, ?_, ?_, hadds.changes⟩
  · refine ⟨event, pass, event.Offers, hprepared, Cells.info_create _ _, fun _ _ _ h => h,
      event, ?_, fun _ _ _ h => h, fun res => (hnext res).mono hadds.grows hquiet⟩
    refine ⟨hsync, hprepared, Cells.info_create _ _, ?_, holder⟩
    intro g hinfo hne
    rcases hinfo.of_create with hold | ⟨heq, -⟩
    · exact (hdead g hold).mono hadds.grows
    · exact absurd heq hne
  · intro thread hmem j
    obtain ⟨k, f, ids, hinfo, rfl⟩ := hspawned thread hmem
    exact future_thread_ok hinfo ids j

section Proc

theorem procStep_good {p : Proc α} (hok : m.Ok) (h : Continues m i stack p)
    (hstep : procStep i m stack p = some out) : Good i m out := by
  cases p with
  | value x =>
    simp only [procStep] at hstep
    split at hstep
    · obtain ⟨offers, g, hresult, hawaits⟩ := h
      exact Good.stay hok hstep ⟨offers, g, hresult x (.refl _), hawaits⟩
    · exact Good.stay hok hstep trivial
  | event event =>
    simp only [procStep] at hstep
    split at hstep
    · rename_i k pass ids rest
      obtain ⟨rfl, f, hinfo, hleads⟩ := h
      obtain ⟨happlied, hprepared⟩ := Event.apply_spec i pass ids hok event
      cases hstep
      refine ⟨happlied.ok, ?_, fun thread hmem j => happlied.thread_ok hmem j,
        happlied.changes⟩
      exact ⟨k, pass, ids, f, rfl, hinfo.mono happlied.changes.grows.futures,
        .inr ⟨event, hleads event (.refl _), hprepared⟩⟩
    · exact Good.stay hok hstep trivial
  | raise => exact Good.stay hok hstep (.inr ⟨_, h⟩)
  | sync event next =>
    simp only [procStep] at hstep
    have hadds : Adds i m { m with syncs := m.syncs.create ⟨event, i⟩ } := adds_sync hok
    obtain ⟨happlied, hprepared⟩ :=
      Event.apply_spec i m.syncs.length [] (hadds.ok hok) event
    have hchanges := hadds.changes.trans happlied.changes
    have hgates := happlied.gates
    have hgood := enter_good (i := i) happlied.ok
      ((Cells.info_create m.syncs ⟨event, i⟩).mono happlied.changes.grows.syncs) hprepared
      ?_ ?_ ?_ happlied.spawned hstep
    · exact ⟨hgood.ok, hgood.thread, hgood.spawned, hchanges.trans hgood.changes⟩
    · intro g hinfo
      rw [hgates] at hinfo
      obtain ⟨synced, hsync⟩ := hok.gate hinfo
      exact absurd hsync.lt (Nat.lt_irrefl _)
    · intro q hq
      obtain ⟨event', hinfo⟩ := stack_owner.2 _ h hq
      exact hinfo.lt
    · intro res
      have hnext : Continues m i stack (next res) := h.weaken fun q hq => .sync hq
      exact hnext.mono hchanges.grows (quiet_of_gates hgates)
  | channel next =>
    refine (adds_channel hok _).goto hok hstep ?_
    have hnext : Continues m i stack (next m.nextChan) := h.weaken fun q hq => .channel hq
    exact hnext.mono (adds_channel (i := i) hok (m.nextChan + 1)).grows (quiet_of_gates rfl)
  | spawn f next =>
    cases hstep
    refine ⟨hok, ?_, ?_, .refl m⟩
    · exact h.weaken fun q hq => .spawn hq
    · intro thread hmem j
      cases List.mem_singleton.mp hmem
      trivial

end Proc

/-- What a thread that tries to pass a gate goes on with. -/
theorem passGate_good {a : Attempt α} {yes no : Control α} (hok : m.Ok)
    (ha : m.AttemptOk g a) (h : passGate m g a yes no stack = some out)
    (hyes : Adds i m { m with gates := m.gates.write g a } →
      (m.gates.write g a).Holds g a →
      (∀ q ∈ loops stack, Quiet m { m with gates := m.gates.write g a } q) →
      yes.Ok { m with gates := m.gates.write g a } i stack)
    (hno : no.Ok m i stack) : Good i m out := by
  simp only [passGate, Option.bind_eq_bind, Option.bind_eq_some_iff] at h
  obtain ⟨⟨isOpen, m'⟩, hgate, hgoto⟩ := h
  rw [Shared.gate, Option.map_eq_some_iff] at hgate
  obtain ⟨⟨sync, value⟩, hcell, heq⟩ := hgate
  cases value with
  | none =>
    cases heq
    have hadds := adds_gate (i := i) hok ha
    refine hadds.goto hok hgoto (hyes hadds (Cells.holds_write hcell) ?_)
    intro q _ g' hinfo
    exact hinfo.of_write
  | some taken =>
    cases heq
    exact Good.stay hok hgoto hno

section Eval

variable {e : Ready α} {event : Event α} {pass : Nat}

theorem evalStep_good (hok : m.Ok) (hprepared : Prepared m.futures pass e event)
    (hgate : m.gates.Info g pass) (hawaits : Awaits m i stack event.Offers g)
    (hstep : evalStep i m g stack e = some out) : Good i m out := by
  cases e with
  | sendEvt ch v =>
    simp only [evalStep, Option.bind_eq_bind, Option.bind_eq_some_iff] at hstep
    obtain ⟨⟨chans, d, owed⟩, hleft, hgoto⟩ := hstep
    have hadds := adds_sendEvt hok hleft
    refine hadds.goto hok hgoto ⟨⟨⟨ch, m.nextPipe, ⟨i, g, v⟩⟩, event.Offers, ?_, rfl,
      fun u => hprepared.offers_sendEvt u, hawaits.mono hadds.grows (quiet_of_gates rfl)⟩,
      Store.left_at hleft, ?_, noLeft_of_length hok⟩
    · simp only [(Store.left_calls hleft).1, List.getElem?_concat_length]
    · rintro p rfl
      exact hok.chans.left_belongs hleft
  | recvEvt ch =>
    simp only [evalStep, Option.bind_eq_bind, Option.bind_eq_some_iff] at hstep
    obtain ⟨⟨chans, d, owed⟩, hright, hgoto⟩ := hstep
    have hadds := adds_recvEvt hok hright
    refine hadds.goto hok hgoto ⟨⟨⟨ch, (), ⟨i, g⟩⟩, event.Offers, ?_, rfl,
      fun u => hprepared.offers_recvEvt u, hawaits.mono hadds.grows (quiet_of_gates rfl)⟩,
      Store.right_at hright, ?_, noRight_of_length hok⟩
    · simp only [(Store.right_calls hright).1, List.getElem?_concat_length]
    · rintro p rfl
      exact hok.chans.right_belongs hright
  | alwaysEvt x =>
    have hattempt : m.AttemptOk g (.always x) := trivial
    refine passGate_good hok hattempt hstep ?_ (.inl ⟨_, g, hawaits⟩)
    intro hadds hholds hquiet
    exact ⟨event.Offers, g, ⟨.always x, x, .always x, hholds, rfl, .always,
      hprepared.offers_alwaysEvt x⟩, hawaits.mono hadds.grows hquiet⟩
  | never => exact Good.stay hok hstep (.inl ⟨_, g, hawaits⟩)
  | nackEvent p self =>
    simp only [evalStep, Option.bind_eq_bind, Option.bind_eq_some_iff] at hstep
    obtain ⟨ids, hread, hgoto⟩ := hstep
    refine Good.stay hok hgoto ?_
    split
    · exact .inl ⟨_, g, hawaits⟩
    · rename_i hself
      exact ⟨ids, event.Offers, Cells.holds_of_read hread, by simpa using hself,
        fun u => hprepared.offers_nackEvent u, hawaits⟩
  | future k =>
    simp only [evalStep, Option.bind_eq_bind, Option.bind_eq_some_iff] at hstep
    obtain ⟨e, hread, hgoto⟩ := hstep
    obtain ⟨f, hinfo, hsub⟩ := hprepared.offers_future
    refine Good.stay hok hgoto ?_
    rcases hok.future hinfo (Cells.holds_of_read hread) with rfl | ⟨event', hleads, hevent'⟩
    · exact ⟨.never, pass, event.Offers, .never, hgate, (fun _ _ _ h => by cases h),
        hawaits⟩
    · exact ⟨event', pass, event.Offers, hevent', hgate, hsub event' hleads, hawaits⟩
  | wrap e f =>
    obtain ⟨event', hevent', hsub⟩ := hprepared.offers_wrap
    exact Good.stay hok hstep ⟨event', pass, event'.Offers, hevent', hgate,
      fun _ _ _ h => h, event.Offers, hsub, hawaits⟩
  | withNack k p ids =>
    simp only [evalStep, Option.bind_eq_bind, Option.bind_eq_some_iff] at hstep
    obtain ⟨e, hread, hgoto⟩ := hstep
    obtain ⟨rfl, f, hinfo, hsub⟩ := hprepared.offers_withNack
    refine Good.stay hok hgoto ?_
    rcases hok.future hinfo (Cells.holds_of_read hread) with rfl | ⟨event', hleads, hevent'⟩
    · exact ⟨.never, p, event.Offers, .never, hgate, (fun _ _ _ h => by cases h),
        hgate, hawaits⟩
    · exact ⟨event', p, event.Offers, hevent', hgate, hsub event' hleads, hgate, hawaits⟩
  | choose made events =>
    obtain ⟨hlen, hall, hsub⟩ := hprepared.offers_choose
    have hadds : Adds i m { m with rets := m.rets.create ⟨g, made⟩ } := adds_ret hok
    cases hstep
    refine ⟨hadds.ok hok, ?_, ?_, hadds.changes⟩
    · exact ⟨g, made, Cells.info_create _ _,
        (hawaits.weaken hsub).mono hadds.grows (quiet_of_gates rfl)⟩
    · intro thread hmem j
      obtain ⟨e, he, rfl⟩ := List.mem_map.mp hmem
      obtain ⟨k, hk⟩ := List.mem_iff_getElem?.mp he
      have hlt : k < made.length := hlen ▸ Store.lt_of_getElem?_eq_some hk
      have hmade : made[k]? = some made[k] := List.getElem?_eq_getElem hlt
      refine ⟨made[k], pass, made[k].Offers, hall k e _ hk hmade, hgate,
        fun _ _ _ h => h, rfl, made, Cells.info_create _ _, ?_⟩
      intro b u v hoffers
      exact .choose (List.getElem_mem hlt) hoffers

end Eval

theorem valueStep_good {res : Option α} (hok : m.Ok) (hresult : m.Result offers g res)
    (hawaits : Awaits m i stack offers g) (hstep : valueStep m stack res = some out) :
    Good i m out := by
  cases stack with
  | nil => exact hawaits.elim
  | cons frame stack =>
    cases frame with
    | map f =>
      obtain ⟨wrapped, hwrap, hawaits⟩ := hawaits
      cases res with
      | none => exact Good.stay hok hstep ⟨wrapped, g, hresult, hawaits⟩
      | some x =>
        refine Good.stay hok hstep ⟨wrapped, g, ?_, hawaits⟩
        intro w hw
        obtain ⟨a, u, b, hholds, hsettled, hbase, hoffers⟩ := hresult
        exact ⟨a, u, b, hholds, hsettled, hbase, hwrap b u x w hoffers hw⟩
    | some => exact hawaits.elim
    | pass pass ids =>
      obtain ⟨hgate, hawaits⟩ := hawaits
      cases res with
      | none => exact Good.stay hok hstep ⟨offers, g, hresult, hawaits⟩
      | some x =>
        obtain ⟨a, u, b, hholds, hsettled, hrest⟩ := hresult
        have hadds : Adds i m { m with syncs := m.syncs.write pass ids } :=
          adds_pass hok ⟨g, hgate, hholds, hsettled⟩
        have hresult : m.Result offers g (some x) :=
          ⟨a, u, b, hholds, hsettled, hrest⟩
        exact hadds.goto hok hstep ⟨offers, g, hresult.mono hadds.grows,
          hawaits.mono hadds.grows (quiet_of_gates rfl)⟩
    | ret ret =>
      obtain ⟨-, events, hinfo, hsub⟩ := hawaits
      have hadds : Adds i m { m with rets := m.rets.write ret res } :=
        adds_setRet hok hinfo (hresult.weaken hsub)
      exact hadds.goto hok hstep trivial
    | loop ev pass next =>
      obtain ⟨event, hloop, hsub, hnext⟩ := hawaits
      cases res with
      | none =>
        refine enter_good hok hloop.sync hloop.prepared ?_ hloop.older hnext
          (fun _ hmem => (List.not_mem_nil hmem).elim) hstep
        intro g' hinfo
        by_cases hg : g' = g
        · subst hg
          exact hresult
        · exact hloop.dead g' hinfo hg
      | some x =>
        obtain ⟨a, u, b, hholds, hsettled, hbase, hoffers⟩ := hresult
        have hpass : Adds i m { m with syncs := m.syncs.write pass [] } :=
          adds_pass hok ⟨g, hloop.gate, hholds, hsettled⟩
        have hresult : m.Result event.Offers g (some x) :=
          ⟨a, u, b, hholds, hsettled, hbase, hsub b u x hoffers⟩
        have hreturned := adds_returned (i := i) (hpass.ok hok)
          (hloop.sync.mono hpass.grows.syncs) hloop.gate (hresult.mono hpass.grows)
        cases hstep
        refine ⟨hreturned.ok (hpass.ok hok), ?_, nofun,
          hpass.changes.trans hreturned.changes⟩
        exact (hnext (some x)).mono (hpass.grows.trans hreturned.grows)
          (quiet_of_gates rfl)
    | future k pass ids => exact hawaits.elim

theorem raiseStep_good (hok : m.Ok) (h : Unwinds m i stack)
    (hstep : raiseStep m stack = some out) : Good i m out := by
  cases stack with
  | nil => exact Good.stay hok hstep trivial
  | cons frame stack =>
    rcases h with ⟨offers, g, hawaits⟩ | ⟨p, hcontinues⟩
    · cases frame with
      | map f =>
        obtain ⟨wrapped, -, hawaits⟩ := hawaits
        exact Good.stay hok hstep (.inl ⟨wrapped, g, hawaits⟩)
      | pass pass ids => exact Good.stay hok hstep (.inl ⟨offers, g, hawaits.2⟩)
      | ret ret => exact Good.stay hok hstep trivial
      | loop ev pass next =>
        obtain ⟨event, -, -, hnext⟩ := hawaits
        exact Good.stay hok hstep (hnext none)
      | _ => exact hawaits.elim
    · cases frame with
      | some =>
        obtain ⟨offers, g, -, hawaits⟩ := hcontinues
        exact Good.stay hok hstep (.inl ⟨offers, g, hawaits⟩)
      | future k pass ids =>
        obtain ⟨rfl, f, hinfo, -⟩ := hcontinues
        exact Good.stay hok hstep ⟨k, pass, ids, f, rfl, hinfo, .inl rfl⟩
      | _ => exact hcontinues.elim

end SmlSharp.CML
