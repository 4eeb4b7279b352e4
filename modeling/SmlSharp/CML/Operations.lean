/-
The operations on couples, gates, variables and futures, as the threads call them.
-/
import SmlSharp.CML.Adds

namespace SmlSharp.CML

open Couple (Store)


variable {α : Type} [Values α] {m m' : Shared α} {i : Nat}

theorem getElem?_concat {β : Type} {l : List β} {a b : β} {k : Nat}
    (h : (l ++ [b])[k]? = some a) : l[k]? = some a ∨ (k = l.length ∧ a = b) := by
  rw [List.getElem?_append] at h
  split at h
  · exact .inl h
  · rename_i hge
    rw [List.getElem?_singleton] at h
    split at h
    · cases h
      exact .inr ⟨by omega, rfl⟩
    · cases h

section Channels

variable {ch g d : Nat} {v : α} {chans : Store Nat Unit (Sender α) Receiver}
  {owed : Option (Nat × Unit)}

/-- A move on the channels that extends the calls and gives new left calls new
pipes. -/
theorem adds_of_chans {nextPipe : Nat} (hok : m.Ok) (hext : m.chans.Extends chans)
    (hchans : chans.Ok) (hnext : nextPipe = chans.lefts.length)
    (hpipe : ∀ {c : Nat} {call}, chans.lefts[c]? = some call →
      m.chans.lefts[c]? = some call ∨ call.value = c) :
    Adds i m { m with chans := chans, nextPipe := nextPipe } where
  grows := ⟨hext, .refl _, .refl _, .refl _, .refl _, .refl _⟩
  chans := hchans
  pipes := hok.pipes
  nextPipe := hnext
  pipe := hpipe
  left := .inl
  right := .inl
  attempt := .inl
  ret _ := .inl
  future _ := .inl
  pass := .inl
  gate := .inl
  returned := .inl

theorem adds_sendEvt (hok : m.Ok)
    (h : m.chans.left ch m.nextPipe ⟨i, g, v⟩ = some (chans, d, owed)) :
    Adds i m { m with chans := chans, nextPipe := m.nextPipe + 1 } := by
  apply adds_of_chans hok (Store.left_extends h) (hok.chans.left h)
  · simp only [(Store.left_calls h).1, List.length_append, hok.nextPipe, List.length_singleton]
  · intro c call hcall
    simp only [(Store.left_calls h).1] at hcall
    refine (getElem?_concat hcall).imp_right ?_
    rintro ⟨rfl, rfl⟩
    exact hok.nextPipe

/-- A call of `recvEvt` makes a right call of the channel. -/
theorem adds_recvEvt (hok : m.Ok) (h : m.chans.right ch () ⟨i, g⟩ = some (chans, d, owed)) :
    Adds i m { m with chans := chans } := by
  apply adds_of_chans hok (Store.right_extends h) (hok.chans.right h)
  · simp only [(Store.right_calls h).2, hok.nextPipe]
  · intro c call hcall
    simp only [(Store.right_calls h).2] at hcall
    exact .inl hcall

/-- A channel is given a pair that belongs to it. -/
theorem adds_setChan {p : Nat × Unit} (hok : m.Ok) (hp : m.chans.Belongs d p) :
    Adds i m { m with chans := m.chans.set d p } := by
  apply adds_of_chans hok (Store.set_extends _ _ _) (hok.chans.set hp)
  · simp only [(Store.set_calls m.chans d p).1, hok.nextPipe]
  · intro c call hcall
    simp only [(Store.set_calls m.chans d p).1] at hcall
    exact .inl hcall

/-- A pipe that is made now has not been used. -/
theorem noLeft_of_length (hok : m.Ok) : m.NoLeft m.chans.lefts.length := by
  intro k call hcall heq
  obtain ⟨⟨n, d, hagreed⟩, -⟩ := hok.left hcall
  obtain ⟨-, l, -, hl, -⟩ := hok.chans.agreed_calls hagreed
  have hlt := Store.lt_of_getElem?_eq_some hl
  exact Nat.lt_irrefl _ (heq ▸ hlt)

/-- The receiver of the next call has made no move at a pipe. -/
theorem noRight_of_length (hok : m.Ok) : m.NoRight m.chans.rights.length := by
  intro k call hcall heq
  obtain ⟨⟨d, hagreed⟩, -⟩ := hok.right hcall
  obtain ⟨-, -, r, -, hr, -⟩ := hok.chans.agreed_calls hagreed
  have hlt := Store.lt_of_getElem?_eq_some hr
  exact Nat.lt_irrefl _ (heq ▸ hlt)

end Channels

section Pipes

variable {c n d : Nat} {pipes : Store (Option α) Bool Unit Nat}
  {owed : Option (Option α × Bool)}

/-- A move on the pipes whose new calls are made by the side they belong to. -/
theorem adds_of_pipes (hok : m.Ok) (hext : m.pipes.Extends pipes) (hpipes : pipes.Ok)
    (hleft : ∀ {k : Nat} {call}, pipes.lefts[k]? = some call →
      m.pipes.lefts[k]? = some call ∨ (k = m.pipes.lefts.length ∧ m.NoLeft call.couple ∧
        Shared.LeftMove { m with pipes := pipes } call ∧
          ∃ l, m.chans.lefts[call.couple]? = some l ∧ l.info.thread = i))
    (hright : ∀ {k : Nat} {call}, pipes.rights[k]? = some call →
      m.pipes.rights[k]? = some call ∨ (k = m.pipes.rights.length ∧ m.NoRight call.info ∧
        Shared.RightMove { m with pipes := pipes } call ∧
          ∃ r, m.chans.rights[call.info]? = some r ∧ r.info.thread = i)) :
    Adds i m { m with pipes := pipes } where
  grows := ⟨.refl _, hext, .refl _, .refl _, .refl _, .refl _⟩
  chans := hok.chans
  pipes := hpipes
  nextPipe := hok.nextPipe
  pipe := .inl
  left := hleft
  right := hright
  attempt := .inl
  ret _ := .inl
  future _ := .inl
  pass := .inl
  gate := .inl
  returned := .inl

/-- The sender hands its value over, or withdraws, once. -/
theorem adds_leftPipe {x : Option α} {l : Couple.Call Nat (Sender α)} (hok : m.Ok)
    (h : m.pipes.left c x () = some (pipes, d, owed)) (hno : m.NoLeft c)
    (hmove : m.LeftMove ⟨c, x, ()⟩) (hl : m.chans.lefts[c]? = some l)
    (hthread : l.info.thread = i) : Adds i m { m with pipes := pipes } := by
  apply adds_of_pipes hok (Store.left_extends h) (hok.pipes.left h)
  · intro k call hcall
    simp only [(Store.left_calls h).1] at hcall
    refine (getElem?_concat hcall).imp_right ?_
    rintro ⟨rfl, rfl⟩
    exact ⟨rfl, hno, hmove, l, hl, hthread⟩
  · intro k call hcall
    simp only [(Store.left_calls h).2.1] at hcall
    exact .inl hcall

/-- The receiver agrees, or withdraws, once. -/
theorem adds_rightPipe {b : Bool} {r : Couple.Call Unit Receiver} (hok : m.Ok)
    (h : m.pipes.right c b n = some (pipes, d, owed)) (hno : m.NoRight n)
    (hmove : m.RightMove ⟨c, b, n⟩) (hr : m.chans.rights[n]? = some r)
    (hthread : r.info.thread = i) : Adds i m { m with pipes := pipes } := by
  apply adds_of_pipes hok (Store.right_extends h) (hok.pipes.right h)
  · intro k call hcall
    simp only [(Store.right_calls h).2] at hcall
    exact .inl hcall
  · intro k call hcall
    simp only [(Store.right_calls h).1] at hcall
    refine (getElem?_concat hcall).imp_right ?_
    rintro ⟨rfl, rfl⟩
    exact ⟨rfl, hno, hmove, r, hr, hthread⟩

theorem adds_setPipe {p : Option α × Bool} (hok : m.Ok) (hp : m.pipes.Belongs d p) :
    Adds i m { m with pipes := m.pipes.set d p } := by
  apply adds_of_pipes hok (Store.set_extends _ _ _) (hok.pipes.set hp)
  · intro k call hcall
    simp only [(Store.set_calls m.pipes d p).1] at hcall
    exact .inl hcall
  · intro k call hcall
    simp only [(Store.set_calls m.pipes d p).2] at hcall
    exact .inl hcall

end Pipes

section Cells

variable {g sync n k : Nat}

/-- A move on the gates after which every attempt that is new is a valid one. -/
theorem adds_of_gates {gates : Cells Nat (Attempt α)} (hok : m.Ok)
    (hext : m.gates.Extends gates)
    (hattempt : ∀ {g a}, gates.Holds g a →
      m.gates.Holds g a ∨ Shared.AttemptOk { m with gates := gates } g a)
    (hgate : ∀ {g sync}, gates.Info g sync → m.gates.Info g sync ∨
      (g = m.gates.length ∧ (∀ g', m.gates.Info g' sync → m.Dead g') ∧
        ∃ event, m.syncs.Info sync ⟨event, i⟩)) :
    Adds i m { m with gates := gates } where
  grows := ⟨.refl _, .refl _, hext, .refl _, .refl _, .refl _⟩
  chans := hok.chans
  pipes := hok.pipes
  nextPipe := hok.nextPipe
  pipe := .inl
  left := .inl
  right := .inl
  attempt := hattempt
  ret _ := .inl
  future _ := .inl
  pass := .inl
  gate := hgate
  returned := .inl

/-- A gate is closed with an attempt that is right for it. -/
theorem adds_gate {a : Attempt α} (hok : m.Ok) (ha : m.AttemptOk g a) :
    Adds i m { m with gates := m.gates.write g a } := by
  apply adds_of_gates hok (Cells.write_extends _ _ _)
  · intro g' a' hholds
    rcases hholds.of_write with hold | ⟨rfl, rfl⟩
    · exact .inl hold
    · exact .inr (ha.mono ⟨.refl _, .refl _, Cells.write_extends _ _ _, .refl _, .refl _,
        .refl _⟩)
  · exact fun hinfo => .inl hinfo.of_write

/-- A new pass of a synchronisation gets a gate of its own when the earlier ones
are dead. -/
theorem adds_enter {event : Event α} (hok : m.Ok) (hsync : m.syncs.Info sync ⟨event, i⟩)
    (hdead : ∀ g, m.gates.Info g sync → m.Dead g) :
    Adds i m { m with gates := m.gates.create sync } := by
  apply adds_of_gates hok (Cells.create_extends _ _)
  · exact fun hholds => .inl hholds.of_create
  · intro g' sync' hinfo
    rcases hinfo.of_create with hold | ⟨rfl, rfl⟩
    · exact .inl hold
    · exact .inr ⟨rfl, hdead, event, hsync⟩

/-- A move on the synchronisations after which a new result has been committed.
-/
theorem adds_of_syncs {syncs : Cells (Synced α) (List Nat)} (hok : m.Ok)
    (hext : m.syncs.Extends syncs)
    (hpass : ∀ {sync ids}, syncs.Holds sync ids → m.syncs.Holds sync ids ∨
      ∃ a u, Shared.Commits { m with syncs := syncs } sync a u) :
    Adds i m { m with syncs := syncs } where
  grows := ⟨.refl _, .refl _, .refl _, hext, .refl _, .refl _⟩
  chans := hok.chans
  pipes := hok.pipes
  nextPipe := hok.nextPipe
  pipe := .inl
  left := .inl
  right := .inl
  attempt := .inl
  ret _ := .inl
  future _ := .inl
  pass := hpass
  gate := .inl
  returned := .inl

theorem adds_sync {synced : Synced α} (hok : m.Ok) :
    Adds i m { m with syncs := m.syncs.create synced } :=
  adds_of_syncs hok (Cells.create_extends _ _) fun hholds => .inl hholds.of_create

theorem adds_pass {ids : List Nat} (hok : m.Ok) {a : Attempt α} {u : α}
    (hcommits : m.Commits sync a u) :
    Adds i m { m with syncs := m.syncs.write sync ids } := by
  apply adds_of_syncs hok (Cells.write_extends _ _ _)
  intro sync' ids' hholds
  rcases hholds.of_write with hold | ⟨rfl, rfl⟩
  · exact .inl hold
  · exact .inr ⟨a, u, hcommits.mono ⟨.refl _, .refl _, .refl _,
      Cells.write_extends _ _ _, .refl _, .refl _⟩⟩

/-- A move on the results of choices after which a new result is one that was
offered. -/
theorem adds_of_rets {rets : Cells (Chosen α) (Option α)} (hok : m.Ok)
    (hext : m.rets.Extends rets)
    (hret : ∀ {n chosen res}, rets.Info n chosen → rets.Holds n res → m.rets.Holds n res ∨
      Shared.Result { m with rets := rets } (Event.choose chosen.events).Offers chosen.gate
        res) :
    Adds i m { m with rets := rets } where
  grows := ⟨.refl _, .refl _, .refl _, .refl _, hext, .refl _⟩
  chans := hok.chans
  pipes := hok.pipes
  nextPipe := hok.nextPipe
  pipe := .inl
  left := .inl
  right := .inl
  attempt := .inl
  ret := hret
  future _ := .inl
  pass := .inl
  gate := .inl
  returned := .inl

theorem adds_ret {chosen : Chosen α} (hok : m.Ok) :
    Adds i m { m with rets := m.rets.create chosen } :=
  adds_of_rets hok (Cells.create_extends _ _) fun _ hholds => .inl hholds.of_create

theorem adds_setRet {chosen : Chosen α} {res : Option α} (hok : m.Ok)
    (hinfo : m.rets.Info n chosen)
    (hresult : m.Result (Event.choose chosen.events).Offers chosen.gate res) :
    Adds i m { m with rets := m.rets.write n res } := by
  apply adds_of_rets hok (Cells.write_extends _ _ _)
  intro n' chosen' res' hinfo' hholds
  rcases hholds.of_write with hold | ⟨rfl, rfl⟩
  · exact .inl hold
  · cases hinfo'.of_write.unique hinfo
    exact .inr (hresult.mono ⟨.refl _, .refl _, .refl _, .refl _,
      Cells.write_extends _ _ _, .refl _⟩)

/-- A move on the guarded events after which a new one is the event of its
guard. -/
theorem adds_of_futures {futures : Cells (Guarded α) (Ready α)} {nextId : Nat} (hok : m.Ok)
    (hext : m.futures.Extends futures)
    (hfuture : ∀ {k guarded e}, futures.Info k guarded → futures.Holds k e →
      m.futures.Holds k e ∨
        Shared.FutureOk { m with nextId := nextId, futures := futures } guarded e) :
    Adds i m { m with nextId := nextId, futures := futures } where
  grows := ⟨.refl _, .refl _, .refl _, .refl _, .refl _, hext⟩
  chans := hok.chans
  pipes := hok.pipes
  nextPipe := hok.nextPipe
  pipe := .inl
  left := .inl
  right := .inl
  attempt := .inl
  ret _ := .inl
  future := hfuture
  pass := .inl
  gate := .inl
  returned := .inl

theorem adds_future {guarded : Guarded α} {nextId : Nat} (hok : m.Ok) :
    Adds i m { m with nextId := nextId, futures := m.futures.create guarded } :=
  adds_of_futures hok (Cells.create_extends _ _) fun _ hholds => .inl hholds.of_create

theorem adds_setFuture {guarded : Guarded α} {e : Ready α} (hok : m.Ok)
    (hinfo : m.futures.Info k guarded) (hfuture : m.FutureOk guarded e) :
    Adds i m { m with futures := m.futures.write k e } := by
  apply adds_of_futures hok (Cells.write_extends _ _ _)
  intro k' guarded' e' hinfo' hholds
  rcases hholds.of_write with hold | ⟨rfl, rfl⟩
  · exact .inl hold
  · cases hinfo'.of_write.unique hinfo
    exact .inr (hfuture.mono ⟨.refl _, .refl _, .refl _, .refl _, .refl _,
      Cells.write_extends _ _ _⟩)

/-- A synchronisation returns the value that its event offered. -/
theorem adds_returned {synced : Synced α} {x : α} (hok : m.Ok)
    (hsync : m.syncs.Info sync synced) (hgate : m.gates.Info g sync)
    (hresult : m.Result synced.event.Offers g (some x)) :
    Adds i m { m with returned := ⟨sync, x⟩ :: m.returned } where
  grows := ⟨.refl _, .refl _, .refl _, .refl _, .refl _, .refl _⟩
  chans := hok.chans
  pipes := hok.pipes
  nextPipe := hok.nextPipe
  pipe := .inl
  left := .inl
  right := .inl
  attempt := .inl
  ret _ := .inl
  future _ := .inl
  pass := .inl
  gate := .inl
  returned hr := by
    rcases List.mem_cons.mp hr with rfl | hold
    · obtain ⟨a, u, b, hholds, hsettled, hbase, hoffers⟩ := hresult
      refine .inr ⟨synced, g, hsync, hgate, a, u, b, hholds, ?_, ?_, hoffers⟩
      · exact hsettled.mono ⟨.refl _, .refl _, .refl _, .refl _, .refl _, .refl _⟩
      · exact hbase.mono ⟨.refl _, .refl _, .refl _, .refl _, .refl _, .refl _⟩
    · exact .inl hold

theorem adds_channel (hok : m.Ok) (ch : Nat) : Adds i m { m with nextChan := ch } where
  grows := ⟨.refl _, .refl _, .refl _, .refl _, .refl _, .refl _⟩
  chans := hok.chans
  pipes := hok.pipes
  nextPipe := hok.nextPipe
  pipe := .inl
  left := .inl
  right := .inl
  attempt := .inl
  ret _ := .inl
  future _ := .inl
  pass := .inl
  gate := .inl
  returned := .inl

end Cells

end SmlSharp.CML
