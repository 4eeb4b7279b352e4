/-
Synchronized events meet exactly: what the calls of `sync` commit in every run.
-/
import SmlSharp.CML.Exchange

namespace SmlSharp.CML

variable {α : Type} [Values α] {m : Shared α}

/-- The calls of `sync` that have returned, and the attempts they have committed. -/
structure Rendezvous (m : Shared α) : Prop where
  /-- A call that has returned has committed an attempt at a base event of its event, and
  it returned what the event yields for the result of the attempt. -/
  returned : ∀ r ∈ m.returned, ∃ synced a u b, m.syncs.Info r.sync synced ∧
    m.Commits r.sync a u ∧ m.IsBase a b ∧ synced.event.Offers b u r.value
  /-- A call commits one attempt at most. -/
  once : ∀ sync a a' u u', m.Commits sync a u → m.Commits sync a' u' → a = a' ∧ u = u'
  /-- An attempt to send is committed by one call at most. -/
  sendOnce : ∀ sync sync' c u u',
    m.Commits sync (.send c) u → m.Commits sync' (.send c) u' → sync = sync'
  /-- The pipe of a committed attempt to send belongs to exactly one committed attempt to
  receive, on the same channel, and that one yields the value. -/
  send : ∀ sync c u, m.Commits sync (.send c) u →
    ∃ l n r sync', m.chans.lefts[c]? = some l ∧ m.chans.rights[n]? = some r ∧
      l.couple = r.couple ∧ m.Commits sync' (.recv c n) l.info.value ∧
      ∀ sync'' n' v, m.Commits sync'' (.recv c n') v → sync'' = sync' ∧ n' = n
  /-- A committed attempt to receive yields the value of a committed attempt to send. -/
  recv : ∀ sync c n v, m.Commits sync (.recv c n) v →
    ∃ l sync' u, m.chans.lefts[c]? = some l ∧ v = l.info.value ∧ m.Commits sync' (.send c) u
  /-- An attempt that is not committed is not the partner of a committed one. -/
  withdrawn : ∀ c n, m.chans.Agreed c n →
    ((∃ sync u, m.Commits sync (.send c) u) ↔ ∃ sync v, m.Commits sync (.recv c n) v)
  /-- The nack of an alternative is committed only after the call of `sync` has committed
  an attempt. -/
  nack : ∀ sync pass self u, m.Commits sync (.nack pass self) u →
    ∃ a u', m.Commits pass a u'

section Committed

theorem exchanged_unique (hok : m.Ok) {c : Nat} {sent sent' : Option α}
    {received received' : Bool} (h : m.Exchanged c sent received)
    (h' : m.Exchanged c sent' received') : sent = sent' ∧ received = received' := by
  obtain ⟨k₁, k₂, l, r, -, hl, hr, hlc, hrc, hlv, hrv⟩ := h
  obtain ⟨k₁', k₂', l', r', -, hl', hr', hlc', hrc', hlv', hrv'⟩ := h'
  cases hok.left_unique hl hl' (hlc.trans hlc'.symm)
  cases hok.right_unique hr hr' (hrc.trans hrc'.symm)
  rw [hl, Option.some.injEq] at hl'
  rw [hr, Option.some.injEq] at hr'
  subst hl' hr'
  exact ⟨hlv.symm.trans hlv', hrv.symm.trans hrv'⟩

theorem settled_unique (hok : m.Ok) {a : Attempt α} {u u' : α} (h : m.Settled a u)
    (h' : m.Settled a u') : u = u' := by
  cases a with
  | send c => exact h.2.trans h'.2.symm
  | recv c n => exact Option.some.inj (exchanged_unique hok h h').1
  | always x => exact Eq.trans h h'.symm
  | nack pass self => exact Eq.trans h h'.symm

/-- What has its result has not failed. -/
theorem Shared.Settled.not_failed (hok : m.Ok) {a : Attempt α} {u : α}
    (h : m.Settled a u) (hfailed : m.Failed a) : False := by
  cases a with
  | send c =>
    obtain ⟨⟨v, hv⟩, -⟩ := h
    obtain ⟨sent, received, hex, hfail⟩ := hfailed
    obtain ⟨rfl, rfl⟩ := exchanged_unique hok hv hex
    rcases hfail with hfail | hfail <;> cases hfail
  | recv c n =>
    obtain ⟨sent, received, hex, hfail⟩ := hfailed
    obtain ⟨rfl, rfl⟩ := exchanged_unique hok h hex
    rcases hfail with hfail | hfail <;> cases hfail
  | always x => exact hfailed
  | nack pass self => exact hfailed

theorem commits_once (hok : m.Ok) {sync : Nat} {a a' : Attempt α} {u u' : α}
    (h : m.Commits sync a u) (h' : m.Commits sync a' u') : a = a' ∧ u = u' := by
  obtain ⟨g, hinfo, hholds, hsettled⟩ := h
  obtain ⟨g', hinfo', hholds', hsettled'⟩ := h'
  obtain ⟨g₀, hsingle⟩ := hok.single sync
  have halive : ∀ {g a u}, m.gates.Holds g a → m.Settled a u → ¬ m.Dead g := by
    rintro g a u hholds hsettled ⟨b, hb, hfailed⟩
    cases hholds.unique hb
    exact hsettled.not_failed hok hfailed
  have hg : g = g₀ := (hsingle g hinfo).resolve_right (halive hholds hsettled)
  have hg' : g' = g₀ := (hsingle g' hinfo').resolve_right (halive hholds' hsettled')
  subst hg hg'
  cases hholds.unique hholds'
  exact ⟨rfl, settled_unique hok hsettled hsettled'⟩

theorem send_once (hok : m.Ok) {sync sync' c : Nat} {u u' : α}
    (h : m.Commits sync (.send c) u) (h' : m.Commits sync' (.send c) u') : sync = sync' := by
  obtain ⟨g, hinfo, hholds, -⟩ := h
  obtain ⟨g', hinfo', hholds', -⟩ := h'
  obtain ⟨l, hl, hg⟩ := hok.attempt hholds
  obtain ⟨l', hl', hg'⟩ := hok.attempt hholds'
  rw [hl, Option.some.injEq] at hl'
  subst hl' hg hg'
  exact hinfo.unique hinfo'

theorem recv_once (hok : m.Ok) {sync sync' c n n' : Nat} {v v' : α}
    (h : m.Commits sync (.recv c n) v) (h' : m.Commits sync' (.recv c n') v') :
    sync = sync' ∧ n = n' := by
  obtain ⟨g, hinfo, hholds, -⟩ := h
  obtain ⟨g', hinfo', hholds', -⟩ := h'
  obtain ⟨hagreed, r, hr, hg⟩ := hok.attempt hholds
  obtain ⟨hagreed', r', hr', hg'⟩ := hok.attempt hholds'
  cases hok.chans.agreed_left hagreed hagreed'
  rw [hr, Option.some.injEq] at hr'
  subst hr' hg hg'
  exact ⟨hinfo.unique hinfo', rfl⟩

/-- When a value and `true` were exchanged at a pipe, both sides have committed. -/
theorem commits_of_exchanged (hok : m.Ok) {c : Nat} {v : α}
    (h : m.Exchanged c (some v) true) :
    ∃ l n r sync sync', m.chans.lefts[c]? = some l ∧ m.chans.rights[n]? = some r ∧
      l.couple = r.couple ∧ v = l.info.value ∧ m.chans.Agreed c n ∧
      m.Commits sync (.send c) Values.unit ∧ m.Commits sync' (.recv c n) v := by
  obtain ⟨k, k', l, r, -, hl, hr, hlc, hrc, hlv, hrv⟩ := id h
  obtain ⟨-, hsent⟩ := hok.left hl
  obtain ⟨hagreed, hreceived⟩ := hok.right hr
  obtain ⟨s, hs, hsv, hsend⟩ := hsent v hlv
  obtain ⟨t, ht, hrecv⟩ := hreceived hrv
  rw [hlc] at hs hsend
  rw [hrc] at hagreed hrecv
  obtain ⟨sync, hsync⟩ := hsend.info
  obtain ⟨sync', hsync'⟩ := hrecv.info
  have hsame : s.couple = t.couple := by
    obtain ⟨d, hd⟩ := hagreed
    obtain ⟨-, s', t', hs', ht', hsame⟩ := hok.chans.agreed_calls hd
    simp only [hs, Option.some.injEq] at hs'
    simp only [ht, Option.some.injEq] at ht'
    subst hs' ht'
    exact hsame
  exact ⟨s, r.info, t, sync, sync', hs, ht, hsame, hsv.symm, hagreed,
    ⟨_, hsync, hsend, ⟨v, h⟩, rfl⟩, _, hsync', hrecv, h⟩

theorem Shared.Ok.rendezvous (hok : m.Ok) : Rendezvous m where
  returned r hr := by
    obtain ⟨synced, g, hsync, hgate, a, u, b, hholds, hsettled, hbase, hoffers⟩ :=
      hok.returned hr
    exact ⟨synced, a, u, b, hsync, ⟨g, hgate, hholds, hsettled⟩, hbase, hoffers⟩
  once _ _ _ _ _ h h' := commits_once hok h h'
  sendOnce _ _ _ _ _ h h' := send_once hok h h'
  send sync c u h := by
    obtain ⟨g, -, -, ⟨v, hv⟩, -⟩ := h
    obtain ⟨l, n, r, -, sync', hl, hr, hsame, hvalue, -, -, hrecv⟩ := commits_of_exchanged hok hv
    subst hvalue
    exact ⟨l, n, r, sync', hl, hr, hsame, hrecv, fun _ _ _ h => recv_once hok h hrecv⟩
  recv sync c n v h := by
    obtain ⟨g, -, -, hv⟩ := h
    obtain ⟨l, n', r, sync', -, hl, -, -, hvalue, -, hsend, -⟩ := commits_of_exchanged hok hv
    exact ⟨l, sync', _, hl, hvalue, hsend⟩
  withdrawn c n hagreed := by
    constructor
    · rintro ⟨sync, u, g, -, -, ⟨v, hv⟩, -⟩
      obtain ⟨l, n', r, -, sync', -, -, -, -, hagreed', -, hrecv⟩ := commits_of_exchanged hok hv
      cases hok.chans.agreed_left hagreed hagreed'
      exact ⟨sync', v, hrecv⟩
    · rintro ⟨sync, v, g, -, -, hv⟩
      obtain ⟨l, n', r, sync', -, -, -, -, -, -, hsend, -⟩ := commits_of_exchanged hok hv
      exact ⟨sync', _, hsend⟩
  nack sync pass self u h := by
    obtain ⟨g, -, hholds, -⟩ := h
    obtain ⟨ids, hpass, -⟩ := hok.attempt hholds
    exact hok.pass hpass

end Committed

theorem Shared.initial_ok (chans : Nat) : (Shared.initial chans : Shared α).Ok where
  chans := Couple.Store.initial_ok
  pipes := Couple.Store.initial_ok
  nextPipe := rfl
  pipe h := by simp [Shared.initial, Couple.Store.initial] at h
  left h := by simp [Shared.initial, Couple.Store.initial] at h
  left_unique h := by simp [Shared.initial, Couple.Store.initial] at h
  right h := by simp [Shared.initial, Couple.Store.initial] at h
  right_unique h := by simp [Shared.initial, Couple.Store.initial] at h
  attempt h := by simp [Shared.initial, Cells.Holds] at h
  ret h := by simp [Shared.initial, Cells.Info] at h
  future h := by simp [Shared.initial, Cells.Info] at h
  pass h := by simp [Shared.initial, Cells.Holds] at h
  gate h := by simp [Shared.initial, Cells.Info] at h
  single sync := ⟨0, fun g h => by simp [Shared.initial, Cells.Info] at h⟩
  returned h := by cases h

/-- However the threads of a program take their steps, its calls of `sync` meet exactly. -/
theorem runs_rendezvous {chans : Nat} {procs : List (Proc α)}
    {pool : ThreadPool (Shared α) (Thread α)}
    (hruns : ThreadPool.Runs act (start chans procs) pool) : Rendezvous pool.shared := by
  have hstart : ThreadPool.AllOk Shared.Ok (fun m i thread => thread.Ok m i)
      (start chans procs) := by
    refine ⟨Shared.initial_ok chans, ?_⟩
    intro i thread hthread
    rw [start, List.getElem?_map, Option.map_eq_some_iff] at hthread
    obtain ⟨p, -, rfl⟩ := hthread
    trivial
  exact (hstart.runs keeps tolerates hruns).1.rendezvous

instance : Values Nat := ⟨0⟩

/-- A choice between a send and a receive meets a receive. -/
theorem runs_rendezvous_choose :
    ∃ pool, ThreadPool.Runs act
        (start 2 [.sync (.choose [.sendEvt 0 42, .recvEvt 1]) fun _ => .value 0,
          .sync (.recvEvt 0) fun _ => .value 0]) pool ∧
      pool.shared.returned.map (fun r => (r.sync, r.value)) = [(0, 0), (1, 42)] ∧
      Rendezvous pool.shared := by
  have hrun : (ThreadPool.runSchedule act
      [0, 0, 1, 1, 2, 2, 1, 1, 1, 2, 2, 2, 2, 1, 1, 1, 2, 2, 0, 0, 0, 3]
      (start 2 [.sync (.choose [.sendEvt 0 42, .recvEvt 1]) fun _ => .value 0,
        .sync (.recvEvt 0) fun _ => .value 0])).map
      (fun pool => pool.shared.returned.map fun r => (r.sync, r.value)) =
        some [(0, 0), (1, 42)] := by
    rfl
  obtain ⟨pool, hpool, hreturned⟩ := Option.map_eq_some_iff.mp hrun
  have hruns := ThreadPool.runs_of_runSchedule hpool
  exact ⟨pool, hruns, hreturned, runs_rendezvous hruns⟩

end SmlSharp.CML
