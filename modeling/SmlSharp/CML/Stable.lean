/-
What holds of a thread is not changed by the steps of the others.
-/
import SmlSharp.CML.Invariant

namespace SmlSharp.CML


variable {α : Type} [Values α] {m m' : Shared α} {i j : Nat} {stack : List (Frame α)}
  {offers : Base α → α → α → Prop} {g : Nat}

/-- No gate was made for the call of `sync`. -/
def Quiet (m m' : Shared α) (sync : Nat) : Prop :=
  ∀ g, m'.gates.Info g sync → m.gates.Info g sync

omit [Values α] in
theorem Shared.FutureOk.mono {guarded : Guarded α} {e : Ready α} (h : m.FutureOk guarded e)
    (hext : m.Extends m') : m'.FutureOk guarded e := by
  rcases h with rfl | ⟨event, hleads, hprepared⟩
  · exact .inl rfl
  · exact .inr ⟨event, hleads, hprepared.mono hext.futures⟩

omit [Values α] in
theorem Looping.mono {ev : Ready α} {pass : Nat} {event : Event α}
    (h : Looping m i stack ev pass event g) (hext : m.Extends m') (hquiet : Quiet m m' pass) :
    Looping m' i stack ev pass event g where
  sync := h.sync.mono hext.syncs
  prepared := h.prepared.mono hext.futures
  gate := h.gate.mono hext.gates
  dead g' hinfo hne := (h.dead g' (hquiet g' hinfo) hne).mono hext
  older := h.older

/-- What a thread waits for survives a change that leaves the passes on its
stack alone. The induction is on the stack. -/
theorem stack_mono (hext : m.Extends m') (hquiet : ∀ q ∈ loops stack, Quiet m m' q) :
    (∀ offers g, Awaits m i stack offers g → Awaits m' i stack offers g) ∧
      ∀ p, Continues m i stack p → Continues m' i stack p := by
  induction stack with
  | nil => exact ⟨fun _ _ h => h.elim, fun _ _ => trivial⟩
  | cons frame stack ih =>
    have hrest : ∀ q ∈ loops stack, Quiet m m' q := fun q hq => hquiet q (by
      cases frame <;> simp_all [loops])
    obtain ⟨ihawaits, ihcontinues⟩ := ih hrest
    cases frame with
    | map f =>
      refine ⟨fun offers g h => ?_, fun _ h => h.elim⟩
      obtain ⟨offers', hsub, hawaits⟩ := h
      exact ⟨offers', hsub, ihawaits _ _ hawaits⟩
    | some =>
      refine ⟨fun _ _ h => h.elim, fun p h => ?_⟩
      obtain ⟨offers, g, hresult, hawaits⟩ := h
      exact ⟨offers, g, fun w hw => (hresult w hw).mono hext, ihawaits _ _ hawaits⟩
    | pass pass ids =>
      refine ⟨fun offers g h => ?_, fun _ h => h.elim⟩
      exact ⟨h.1.mono hext.gates, ihawaits _ _ h.2⟩
    | ret ret =>
      refine ⟨fun offers g h => ?_, fun _ h => h.elim⟩
      obtain ⟨hnil, events, hinfo, hsub⟩ := h
      exact ⟨hnil, events, hinfo.mono hext.rets, hsub⟩
    | loop ev pass next =>
      refine ⟨fun offers g h => ?_, fun _ h => h.elim⟩
      obtain ⟨event, hloop, hsub, hnext⟩ := h
      exact ⟨event, hloop.mono hext (hquiet pass (by simp [loops])), hsub,
        fun res => ihcontinues _ (hnext res)⟩
    | future k pass ids =>
      refine ⟨fun _ _ h => h.elim, fun p h => ?_⟩
      obtain ⟨hnil, f, hinfo, hleads⟩ := h
      exact ⟨hnil, f, hinfo.mono hext.futures, hleads⟩

theorem Awaits.mono (h : Awaits m i stack offers g) (hext : m.Extends m')
    (hquiet : ∀ q ∈ loops stack, Quiet m m' q) : Awaits m' i stack offers g :=
  (stack_mono hext hquiet).1 offers g h

theorem Continues.mono {p : Proc α} (h : Continues m i stack p) (hext : m.Extends m')
    (hquiet : ∀ q ∈ loops stack, Quiet m m' q) : Continues m' i stack p :=
  (stack_mono hext hquiet).2 p h

/-- The calls of `sync` in the stack of a thread were made by this thread. -/
theorem stack_owner {q : Nat} :
    (∀ offers g, Awaits m i stack offers g → q ∈ loops stack →
      ∃ event, m.syncs.Info q ⟨event, i⟩) ∧
    ∀ p, Continues m i stack p → q ∈ loops stack → ∃ event, m.syncs.Info q ⟨event, i⟩ := by
  induction stack with
  | nil => exact ⟨fun _ _ h => h.elim, fun _ _ hq => by simp [loops] at hq⟩
  | cons frame stack ih =>
    obtain ⟨ihawaits, ihcontinues⟩ := ih
    cases frame with
    | map f =>
      refine ⟨fun offers g h hq => ?_, fun _ h => h.elim⟩
      obtain ⟨offers', -, hawaits⟩ := h
      exact ihawaits _ _ hawaits hq
    | some =>
      refine ⟨fun _ _ h => h.elim, fun p h hq => ?_⟩
      obtain ⟨offers, g, -, hawaits⟩ := h
      exact ihawaits _ _ hawaits hq
    | pass pass ids => exact ⟨fun offers g h hq => ihawaits _ _ h.2 hq, fun _ h => h.elim⟩
    | ret ret =>
      refine ⟨fun offers g h hq => ?_, fun _ h => h.elim⟩
      obtain ⟨rfl, -⟩ := h
      simp [loops] at hq
    | loop ev pass next =>
      refine ⟨fun offers g h hq => ?_, fun _ h => h.elim⟩
      obtain ⟨event, hloop, -, hnext⟩ := h
      have hmem : q = pass ∨ q ∈ loops stack := by simpa [loops] using hq
      rcases hmem with rfl | hq
      · exact ⟨event, hloop.sync⟩
      · exact ihcontinues _ (hnext none) hq
    | future k pass ids =>
      refine ⟨fun _ _ h => h.elim, fun p h hq => ?_⟩
      obtain ⟨rfl, -⟩ := h
      simp [loops] at hq

omit [Values α] in
/-- Another thread does not touch the pass of a synchronisation that is not its
own. -/
theorem Changes.quiet {q : Nat} {event : Event α} (h : Changes i m m') (hne : j ≠ i)
    (hinfo : m.syncs.Info q ⟨event, j⟩) : Quiet m m' q := by
  intro g hg
  rcases h.gates g q hg with hold | ⟨event', hnew⟩
  · exact hold
  · have heq := (hinfo.mono h.grows.syncs).unique hnew
    exact absurd (congrArg Synced.thread heq) hne

theorem Unwinds.mono (h : Unwinds m i stack) (hext : m.Extends m')
    (hquiet : ∀ q ∈ loops stack, Quiet m m' q) : Unwinds m' i stack := by
  rcases h with ⟨offers, g, h⟩ | ⟨p, h⟩
  · exact .inl ⟨offers, g, h.mono hext hquiet⟩
  · exact .inr ⟨p, h.mono hext hquiet⟩

theorem Sending.mono {c : Nat} {v : α} (h : Sending m i stack c v g) (hext : m.Extends m')
    (hquiet : ∀ q ∈ loops stack, Quiet m m' q) : Sending m' i stack c v g := by
  obtain ⟨l, offers, hl, hinfo, hoffers, hawaits⟩ := h
  exact ⟨l, offers, hext.chans.lefts hl, hinfo, hoffers, hawaits.mono hext hquiet⟩

theorem Receiving.mono {n : Nat} (h : Receiving m i stack n g) (hext : m.Extends m')
    (hquiet : ∀ q ∈ loops stack, Quiet m m' q) : Receiving m' i stack n g := by
  obtain ⟨r, offers, hr, hinfo, hoffers, hawaits⟩ := h
  exact ⟨r, offers, hext.chans.rights hr, hinfo, hoffers, hawaits.mono hext hquiet⟩

theorem Awaits.quiet (h : Awaits m j stack offers g) (hne : j ≠ i)
    (hchanges : Changes i m m') : ∀ q ∈ loops stack, Quiet m m' q := by
  intro q hq
  obtain ⟨event, hinfo⟩ := stack_owner.1 _ _ h hq
  exact hchanges.quiet hne hinfo

theorem Continues.quiet {p : Proc α} (h : Continues m j stack p) (hne : j ≠ i)
    (hchanges : Changes i m m') : ∀ q ∈ loops stack, Quiet m m' q := by
  intro q hq
  obtain ⟨event, hinfo⟩ := stack_owner.2 _ h hq
  exact hchanges.quiet hne hinfo

theorem Awaits.tolerates (h : Awaits m j stack offers g) (hne : j ≠ i)
    (hchanges : Changes i m m') : Awaits m' j stack offers g :=
  h.mono hchanges.grows (h.quiet hne hchanges)

theorem Continues.tolerates {p : Proc α} (h : Continues m j stack p) (hne : j ≠ i)
    (hchanges : Changes i m m') : Continues m' j stack p :=
  h.mono hchanges.grows (h.quiet hne hchanges)

theorem Unwinds.tolerates (h : Unwinds m j stack) (hne : j ≠ i) (hchanges : Changes i m m') :
    Unwinds m' j stack := by
  refine h.mono hchanges.grows ?_
  rcases h with ⟨offers, g, h⟩ | ⟨p, h⟩
  · exact h.quiet hne hchanges
  · exact h.quiet hne hchanges

theorem Sending.tolerates {c : Nat} {v : α} (h : Sending m j stack c v g) (hne : j ≠ i)
    (hchanges : Changes i m m') : Sending m' j stack c v g := by
  refine h.mono hchanges.grows ?_
  obtain ⟨_, _, _, _, _, hawaits⟩ := h
  exact hawaits.quiet hne hchanges

theorem Receiving.tolerates {n : Nat} (h : Receiving m j stack n g) (hne : j ≠ i)
    (hchanges : Changes i m m') : Receiving m' j stack n g := by
  refine h.mono hchanges.grows ?_
  obtain ⟨_, _, _, _, _, hawaits⟩ := h
  exact hawaits.quiet hne hchanges

omit [Values α] in
/-- No other thread makes a move for the sender of a pipe. -/
theorem Shared.NoLeft.tolerates {c : Nat} {l : Couple.Call Nat (Sender α)}
    (h : m.NoLeft c) (hl : m.chans.lefts[c]? = some l) (hthread : l.info.thread = j)
    (hne : j ≠ i) (hchanges : Changes i m m') : m'.NoLeft c := by
  intro k call hcall
  rcases hchanges.lefts k call hcall with hold | ⟨l', hl', hthread'⟩
  · exact h k call hold
  · rintro rfl
    rw [hchanges.grows.chans.lefts hl] at hl'
    cases hl'
    exact hne (hthread.symm.trans hthread')

omit [Values α] in
/-- No other thread moves at a pipe for the receiver. -/
theorem Shared.NoRight.tolerates {n : Nat} {r : Couple.Call Unit Receiver}
    (h : m.NoRight n) (hr : m.chans.rights[n]? = some r) (hthread : r.info.thread = j)
    (hne : j ≠ i) (hchanges : Changes i m m') : m'.NoRight n := by
  intro k call hcall
  rcases hchanges.rights k call hcall with hold | ⟨r', hr', hthread'⟩
  · exact h k call hold
  · rintro rfl
    rw [hchanges.grows.chans.rights hr] at hr'
    cases hr'
    exact hne (hthread.symm.trans hthread')

theorem Sending.noLeft {c : Nat} {v : α} (h : Sending m j stack c v g) (hno : m.NoLeft c)
    (hne : j ≠ i) (hchanges : Changes i m m') : m'.NoLeft c := by
  obtain ⟨l, -, hl, hinfo, -⟩ := h
  exact hno.tolerates hl (by rw [hinfo]) hne hchanges

theorem Receiving.noRight {n : Nat} (h : Receiving m j stack n g) (hno : m.NoRight n)
    (hne : j ≠ i) (hchanges : Changes i m m') : m'.NoRight n := by
  obtain ⟨r, -, hr, hinfo, -⟩ := h
  exact hno.tolerates hr (by rw [hinfo]) hne hchanges

/-- The control of a thread stays right when another one moves. -/
theorem Control.Ok.tolerates {control : Control α} (h : control.Ok m j stack) (hne : j ≠ i)
    (hchanges : Changes i m m') : control.Ok m' j stack := by
  have hext := hchanges.grows
  cases control with
  | proc p => exact Continues.tolerates h hne hchanges
  | eval e g =>
    obtain ⟨event, pass, offers, hprepared, hgate, hsub, hawaits⟩ := h
    exact ⟨event, pass, offers, hprepared.mono hext.futures, hgate.mono hext.gates, hsub,
      hawaits.tolerates hne hchanges⟩
  | value res =>
    obtain ⟨offers, g, hresult, hawaits⟩ := h
    exact ⟨offers, g, hresult.mono hext, hawaits.tolerates hne hchanges⟩
  | raise => exact Unwinds.tolerates h hne hchanges
  | halt => trivial
  | prepared e =>
    obtain ⟨k, pass, ids, f, hstack, hinfo, hfuture⟩ := h
    exact ⟨k, pass, ids, f, hstack, hinfo.mono hext.futures, hfuture.mono hext⟩
  | choosing ret =>
    obtain ⟨g, events, hinfo, hawaits⟩ := h
    exact ⟨g, events, hinfo.mono hext.rets, hawaits.tolerates hne hchanges⟩
  | sendPaired call d owed v g =>
    obtain ⟨hsending, hat, howed, hno⟩ := h
    exact ⟨hsending.tolerates hne hchanges, hext.chans.leftAt hat,
      fun p hp => (howed p hp).mono hext.chans, hsending.noLeft hno hne hchanges⟩
  | sendGate c v g =>
    obtain ⟨hsending, ⟨n, hagreed⟩, hno⟩ := h
    exact ⟨hsending.tolerates hne hchanges, ⟨n, hagreed.mono hext.chans⟩,
      hsending.noLeft hno hne hchanges⟩
  | sendNone c =>
    obtain ⟨hunwinds, ⟨l, hl, hthread⟩, ⟨n, hagreed⟩, hno⟩ := h
    exact ⟨hunwinds.tolerates hne hchanges, ⟨l, hext.chans.lefts hl, hthread⟩,
      ⟨n, hagreed.mono hext.chans⟩, hno.tolerates hl hthread hne hchanges⟩
  | sendSome c v g =>
    obtain ⟨hsending, ⟨n, hagreed⟩, hno, hholds⟩ := h
    exact ⟨hsending.tolerates hne hchanges, ⟨n, hagreed.mono hext.chans⟩,
      hsending.noLeft hno hne hchanges, hholds.mono hext.gates⟩
  | sendKill d owed | recvKill d owed =>
    obtain ⟨hunwinds, howed⟩ := h
    exact ⟨hunwinds.tolerates hne hchanges, fun p hp => (howed p hp).mono hext.pipes⟩
  | sendSettle c call d owed v g =>
    obtain ⟨hsending, hholds, hcall, hat, howed⟩ := h
    exact ⟨hsending.tolerates hne hchanges, hholds.mono hext.gates, hext.pipes.lefts hcall,
      hext.pipes.leftAt hat, fun p hp => (howed p hp).mono hext.pipes⟩
  | recvPaired call d owed g =>
    obtain ⟨hreceiving, hat, howed, hno⟩ := h
    exact ⟨hreceiving.tolerates hne hchanges, hext.chans.rightAt hat,
      fun p hp => (howed p hp).mono hext.chans, hreceiving.noRight hno hne hchanges⟩
  | recvGate c call g =>
    obtain ⟨hreceiving, hagreed, hno⟩ := h
    exact ⟨hreceiving.tolerates hne hchanges, hagreed.mono hext.chans,
      hreceiving.noRight hno hne hchanges⟩
  | recvFalse c call =>
    obtain ⟨hunwinds, ⟨r, hr, hthread⟩, hagreed, hno⟩ := h
    exact ⟨hunwinds.tolerates hne hchanges, ⟨r, hext.chans.rights hr, hthread⟩,
      hagreed.mono hext.chans, hno.tolerates hr hthread hne hchanges⟩
  | recvTrue c call g =>
    obtain ⟨hreceiving, hagreed, hno, hholds⟩ := h
    exact ⟨hreceiving.tolerates hne hchanges, hagreed.mono hext.chans,
      hreceiving.noRight hno hne hchanges, hholds.mono hext.gates⟩
  | recvSettle c call k d owed g =>
    obtain ⟨hreceiving, hholds, hcall, hat, howed⟩ := h
    exact ⟨hreceiving.tolerates hne hchanges, hholds.mono hext.gates,
      hext.pipes.rights hcall, hext.pipes.rightAt hat,
      fun p hp => (howed p hp).mono hext.pipes⟩
  | nackGate pass self g =>
    obtain ⟨ids, offers, hholds, hself, hoffers, hawaits⟩ := h
    exact ⟨ids, offers, hholds.mono hext.syncs, hself, hoffers,
      hawaits.tolerates hne hchanges⟩

/-- The threads that do not move keep their invariant. -/
theorem tolerates : ThreadPool.Tolerates (τ := Thread α)
    (fun m i thread => thread.Ok m i) Changes :=
  fun _ _ _ _ _ hne hchanges h => Control.Ok.tolerates h hne hchanges

end SmlSharp.CML
