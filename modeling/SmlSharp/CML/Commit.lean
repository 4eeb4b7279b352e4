/-
What an event offers, and which attempts a run has committed.
-/
import SmlSharp.CML.Machine

namespace SmlSharp.CML

variable {α : Type}

/-- The base events of an event. -/
inductive Base (α : Type) where
  | send (ch : Nat) (v : α)
  | recv (ch : Nat)
  | always (x : α)
  | nack (pass self : Nat)

/-- What a process may come to, whatever its calls of `sync` return. -/
inductive Proc.Leads : Proc α → Proc α → Prop where
  | refl (p : Proc α) : Leads p p
  | sync {event next res q} (h : Leads (next res) q) : Leads (.sync event next) q
  | channel {next ch q} (h : Leads (next ch) q) : Leads (.channel next) q
  | spawn {f next q} (h : Leads next q) : Leads (.spawn f next) q

/-- The event offers a base event: if that yields `u`, the event may yield `v`. -/
inductive Event.Offers : Event α → Base α → α → α → Prop where
  | sendEvt {ch v u} : Offers (.sendEvt ch v) (.send ch v) u u
  | recvEvt {ch u} : Offers (.recvEvt ch) (.recv ch) u u
  | alwaysEvt {x u} : Offers (.alwaysEvt x) (.always x) u u
  | nackEvent {pass self u} : Offers (.nackEvent pass self) (.nack pass self) u u
  | guard {f event b u v} (hf : f.Leads (.event event)) (h : Offers event b u v) :
      Offers (.guard f) b u v
  | wrap {event f b u v w} (h : Offers event b u v) (hf : (f v).Leads (.value w)) :
      Offers (.wrap event f) b u w
  | withNack {f pass id event b u v} (hf : (f pass id).Leads (.event event))
      (h : Offers event b u v) : Offers (.withNack f) b u v
  | choose {events event b u v} (hmem : event ∈ events) (h : Offers event b u v) :
      Offers (.choose events) b u v

namespace Shared

/-- Both sides have made their move at a pipe. -/
def Exchanged (m : Shared α) (c : Nat) (sent : Option α) (received : Bool) : Prop :=
  ∃ k k' l r, m.pipes.Agreed k k' ∧ m.pipes.lefts[k]? = some l ∧
    m.pipes.rights[k']? = some r ∧ l.couple = c ∧ r.couple = c ∧
    l.value = sent ∧ r.value = received

/-- The attempt has its result. -/
def Settled [Values α] (m : Shared α) : Attempt α → α → Prop
  | .send c, u => (∃ v, m.Exchanged c (some v) true) ∧ u = Values.unit
  | .recv c _, u => m.Exchanged c (some u) true
  | .always x, u => u = x
  | .nack _ _, u => u = Values.unit

/-- One of the two sides has withdrawn. -/
def Failed (m : Shared α) : Attempt α → Prop
  | .send c | .recv c _ =>
    ∃ sent received, m.Exchanged c sent received ∧ (sent = none ∨ received = false)
  | .always _ | .nack _ _ => False

/-- The base event at which the attempt is made. -/
inductive IsBase (m : Shared α) : Attempt α → Base α → Prop where
  | send {c call} (h : m.chans.lefts[c]? = some call) :
      IsBase m (.send c) (.send call.couple call.info.value)
  | recv {c n call} (h : m.chans.rights[n]? = some call) :
      IsBase m (.recv c n) (.recv call.couple)
  | always {x} : IsBase m (.always x) (.always x)
  | nack {pass self} : IsBase m (.nack pass self) (.nack pass self)

/-- The call of `sync` has committed the attempt, which yields `u`: it has closed a gate
of the call, and it has its result. -/
def Commits [Values α] (m : Shared α) (sync : Nat) (a : Attempt α) (u : α) : Prop :=
  ∃ g, m.gates.Info g sync ∧ m.gates.Holds g a ∧ m.Settled a u

/-- The attempt that closed the gate has failed. -/
def Dead (m : Shared α) (g : Nat) : Prop := ∃ a, m.gates.Holds g a ∧ m.Failed a

/-- A result that comes from the attempt that closed the gate, made at one of the offers. -/
def Result [Values α] (m : Shared α) (offers : Base α → α → α → Prop) (g : Nat) :
    Option α → Prop
  | none => m.Dead g
  | some v => ∃ a u b, m.gates.Holds g a ∧ m.Settled a u ∧ m.IsBase a b ∧ offers b u v

/-- The data only grow. -/
structure Extends (m m' : Shared α) : Prop where
  chans : m.chans.Extends m'.chans
  pipes : m.pipes.Extends m'.pipes
  gates : m.gates.Extends m'.gates
  syncs : m.syncs.Extends m'.syncs
  rets : m.rets.Extends m'.rets
  futures : m.futures.Extends m'.futures

theorem Extends.refl (m : Shared α) : Extends m m where
  chans := .refl _
  pipes := .refl _
  gates := .refl _
  syncs := .refl _
  rets := .refl _
  futures := .refl _

theorem Extends.trans {m m' m'' : Shared α} (h : Extends m m') (h' : Extends m' m'') :
    Extends m m'' where
  chans := h.chans.trans h'.chans
  pipes := h.pipes.trans h'.pipes
  gates := h.gates.trans h'.gates
  syncs := h.syncs.trans h'.syncs
  rets := h.rets.trans h'.rets
  futures := h.futures.trans h'.futures

section Mono

variable {m m' : Shared α} {c g sync : Nat} {a : Attempt α} {u : α} {b : Base α}

theorem Exchanged.mono {sent : Option α} {received : Bool}
    (h : m.Exchanged c sent received) (hext : m.Extends m') :
    m'.Exchanged c sent received := by
  obtain ⟨k, k', l, r, hagreed, hl, hr, hrest⟩ := h
  exact ⟨k, k', l, r, hagreed.mono hext.pipes, hext.pipes.lefts hl, hext.pipes.rights hr,
    hrest⟩

theorem Settled.mono [Values α] (h : m.Settled a u) (hext : m.Extends m') :
    m'.Settled a u := by
  cases a with
  | send c =>
    obtain ⟨⟨v, hv⟩, hu⟩ := h
    exact ⟨⟨v, hv.mono hext⟩, hu⟩
  | recv c n => exact Exchanged.mono h hext
  | always x => exact h
  | nack pass self => exact h

theorem Failed.mono (h : m.Failed a) (hext : m.Extends m') : m'.Failed a := by
  cases a with
  | send c | recv c n =>
    obtain ⟨sent, received, hex, hfail⟩ := h
    exact ⟨sent, received, hex.mono hext, hfail⟩
  | always x => exact h
  | nack pass self => exact h

theorem IsBase.mono (h : m.IsBase a b) (hext : m.Extends m') : m'.IsBase a b := by
  cases h with
  | send h => exact .send (hext.chans.lefts h)
  | recv h => exact .recv (hext.chans.rights h)
  | always => exact .always
  | nack => exact .nack

theorem Commits.mono [Values α] (h : m.Commits sync a u) (hext : m.Extends m') :
    m'.Commits sync a u := by
  obtain ⟨g, hinfo, hholds, hsettled⟩ := h
  exact ⟨g, hinfo.mono hext.gates, hholds.mono hext.gates, hsettled.mono hext⟩

theorem Dead.mono (h : m.Dead g) (hext : m.Extends m') : m'.Dead g := by
  obtain ⟨a, hholds, hfailed⟩ := h
  exact ⟨a, hholds.mono hext.gates, hfailed.mono hext⟩

theorem Result.mono [Values α] {offers : Base α → α → α → Prop} {res : Option α}
    (h : m.Result offers g res) (hext : m.Extends m') : m'.Result offers g res := by
  cases res with
  | none => exact Dead.mono h hext
  | some v =>
    obtain ⟨a, u, b, hholds, hsettled, hbase, hoffers⟩ := h
    exact ⟨a, u, b, hholds.mono hext.gates, hsettled.mono hext, hbase.mono hext, hoffers⟩

theorem Result.weaken [Values α] {offers offers' : Base α → α → α → Prop}
    (hsub : ∀ b u v, offers b u v → offers' b u v) {res : Option α}
    (h : m.Result offers g res) : m.Result offers' g res := by
  cases res with
  | none => exact h
  | some v =>
    obtain ⟨a, u, b, hholds, hsettled, hbase, hoffers⟩ := h
    exact ⟨a, u, b, hholds, hsettled, hbase, hsub b u v hoffers⟩

end Mono

end Shared

/-- The event was given a path with the pass. -/
inductive Prepared (futures : Cells (Guarded α) (Ready α)) (pass : Nat) :
    Ready α → Event α → Prop where
  | sendEvt {ch v} : Prepared futures pass (.sendEvt ch v) (.sendEvt ch v)
  | recvEvt {ch} : Prepared futures pass (.recvEvt ch) (.recvEvt ch)
  | alwaysEvt {x} : Prepared futures pass (.alwaysEvt x) (.alwaysEvt x)
  | never : Prepared futures pass .never .never
  | nackEvent {p self} : Prepared futures pass (.nackEvent p self) (.nackEvent p self)
  | guard {k f} (h : futures.Info k ⟨f, pass⟩) : Prepared futures pass (.future k) (.guard f)
  | wrap {e event f} (h : Prepared futures pass e event) :
      Prepared futures pass (.wrap e f) (.wrap event f)
  | withNack {k f id ids} (h : futures.Info k ⟨f pass id, pass⟩) :
      Prepared futures pass (.withNack k pass ids) (.withNack f)
  | none : Prepared futures pass .never (.choose [])
  | one {e event} (h : Prepared futures pass e event) :
      Prepared futures pass e (.choose [event])
  | choose {events es} (hlen : es.length = events.length)
      (h : ∀ (j : Nat) (e : Ready α) (event : Event α),
        es[j]? = some e → events[j]? = some event → Prepared futures pass e event) :
      Prepared futures pass (.choose events es) (.choose events)

section Prepared

variable {futures futures' : Cells (Guarded α) (Ready α)} {pass : Nat} {e : Ready α}
  {event : Event α}

theorem Prepared.mono (h : Prepared futures pass e event) (hext : futures.Extends futures') :
    Prepared futures' pass e event := by
  induction h with
  | sendEvt => exact .sendEvt
  | recvEvt => exact .recvEvt
  | alwaysEvt => exact .alwaysEvt
  | never => exact .never
  | nackEvent => exact .nackEvent
  | guard h => exact .guard (h.mono hext)
  | wrap _ ih => exact .wrap ih
  | withNack h => exact .withNack (h.mono hext)
  | none => exact .none
  | one _ ih => exact .one ih
  | choose hlen _ ih => exact .choose hlen ih

theorem offers_one {b : Base α} {u v : α} (h : event.Offers b u v) :
    (Event.choose [event]).Offers b u v :=
  .choose (List.mem_singleton.mpr rfl) h

theorem Prepared.offers_sendEvt {ch : Nat} {v : α}
    (h : Prepared futures pass (.sendEvt ch v) event) (u : α) :
    event.Offers (.send ch v) u u := by
  generalize he : Ready.sendEvt ch v = e at h
  induction h with
  | sendEvt =>
    cases he
    exact .sendEvt
  | one _ ih => exact offers_one (ih he)
  | _ => cases he

theorem Prepared.offers_recvEvt {ch : Nat} (h : Prepared futures pass (.recvEvt ch) event)
    (u : α) : event.Offers (.recv ch) u u := by
  generalize he : Ready.recvEvt ch = e at h
  induction h with
  | recvEvt =>
    cases he
    exact .recvEvt
  | one _ ih => exact offers_one (ih he)
  | _ => cases he

theorem Prepared.offers_alwaysEvt {x : α} (h : Prepared futures pass (.alwaysEvt x) event)
    (u : α) : event.Offers (.always x) u u := by
  generalize he : Ready.alwaysEvt x = e at h
  induction h with
  | alwaysEvt =>
    cases he
    exact .alwaysEvt
  | one _ ih => exact offers_one (ih he)
  | _ => cases he

theorem Prepared.offers_nackEvent {p self : Nat}
    (h : Prepared futures pass (.nackEvent p self) event) (u : α) :
    event.Offers (.nack p self) u u := by
  generalize he : Ready.nackEvent p self = e at h
  induction h with
  | nackEvent =>
    cases he
    exact .nackEvent
  | one _ ih => exact offers_one (ih he)
  | _ => cases he

theorem Prepared.offers_future {k : Nat} (h : Prepared futures pass (.future k) event) :
    ∃ f, futures.Info k ⟨f, pass⟩ ∧ ∀ event', f.Leads (.event event') →
      ∀ b u v, event'.Offers b u v → event.Offers b u v := by
  generalize he : Ready.future k = e at h
  induction h with
  | guard hinfo =>
    cases he
    exact ⟨_, hinfo, fun event' hf b u v hoffers => .guard hf hoffers⟩
  | one _ ih =>
    obtain ⟨f, hinfo, hsub⟩ := ih he
    exact ⟨f, hinfo, fun event' hf b u v hoffers => offers_one (hsub event' hf b u v hoffers)⟩
  | _ => cases he

theorem Prepared.offers_withNack {k p : Nat} {ids : List Nat}
    (h : Prepared futures pass (.withNack k p ids) event) :
    p = pass ∧ ∃ f, futures.Info k ⟨f, pass⟩ ∧ ∀ event', f.Leads (.event event') →
      ∀ b u v, event'.Offers b u v → event.Offers b u v := by
  generalize he : Ready.withNack k p ids = e at h
  induction h with
  | withNack hinfo =>
    cases he
    exact ⟨rfl, _, hinfo, fun event' hf b u v hoffers => .withNack hf hoffers⟩
  | one _ ih =>
    obtain ⟨hp, f, hinfo, hsub⟩ := ih he
    exact ⟨hp, f, hinfo,
      fun event' hf b u v hoffers => offers_one (hsub event' hf b u v hoffers)⟩
  | _ => cases he

theorem Prepared.offers_wrap {f : α → Proc α} (h : Prepared futures pass (.wrap e f) event) :
    ∃ event', Prepared futures pass e event' ∧ ∀ b u v w, event'.Offers b u v →
      (f v).Leads (.value w) → event.Offers b u w := by
  generalize he : Ready.wrap e f = e' at h
  induction h with
  | wrap hprepared =>
    cases he
    exact ⟨_, hprepared, fun b u v w hoffers hf => .wrap hoffers hf⟩
  | one _ ih =>
    obtain ⟨event', hprepared, hsub⟩ := ih he
    exact ⟨event', hprepared, fun b u v w hoffers hf => offers_one (hsub b u v w hoffers hf)⟩
  | _ => cases he

theorem Prepared.offers_choose {events : List (Event α)} {es : List (Ready α)}
    (h : Prepared futures pass (.choose events es) event) :
    es.length = events.length ∧ (∀ (j : Nat) (e : Ready α) (event : Event α),
        es[j]? = some e → events[j]? = some event → Prepared futures pass e event) ∧
      ∀ b u v, (Event.choose events).Offers b u v → event.Offers b u v := by
  generalize he : Ready.choose events es = e' at h
  induction h with
  | choose hlen hall =>
    cases he
    exact ⟨hlen, hall, fun b u v hoffers => hoffers⟩
  | one _ ih =>
    obtain ⟨hlen, hall, hsub⟩ := ih he
    exact ⟨hlen, hall, fun b u v hoffers => offers_one (hsub b u v hoffers)⟩
  | _ => cases he

end Prepared

end SmlSharp.CML
