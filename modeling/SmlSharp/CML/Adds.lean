/-
What the atomic steps add to the shared data.
-/
import SmlSharp.CML.Stable

namespace SmlSharp.CML


variable {α : Type} [Values α] {m m' m'' : Shared α} {i : Nat}

/-- What the thread of a number adds to the shared data is as it has to be. -/
structure Adds (i : Nat) (m m' : Shared α) : Prop where
  grows : m.Extends m'
  chans : m'.chans.Ok
  pipes : m'.pipes.Ok
  nextPipe : m'.nextPipe = m'.chans.lefts.length
  pipe : ∀ {c : Nat} {call}, m'.chans.lefts[c]? = some call →
    m.chans.lefts[c]? = some call ∨ call.value = c
  left : ∀ {k : Nat} {call}, m'.pipes.lefts[k]? = some call →
    m.pipes.lefts[k]? = some call ∨ (k = m.pipes.lefts.length ∧ m.NoLeft call.couple ∧
      m'.LeftMove call ∧ ∃ l, m'.chans.lefts[call.couple]? = some l ∧ l.info.thread = i)
  right : ∀ {k : Nat} {call}, m'.pipes.rights[k]? = some call →
    m.pipes.rights[k]? = some call ∨ (k = m.pipes.rights.length ∧ m.NoRight call.info ∧
      m'.RightMove call ∧
        ∃ r, m'.chans.rights[call.info]? = some r ∧ r.info.thread = i)
  attempt : ∀ {g a}, m'.gates.Holds g a → m.gates.Holds g a ∨ m'.AttemptOk g a
  ret : ∀ {n chosen res}, m'.rets.Info n chosen → m'.rets.Holds n res →
    m.rets.Holds n res ∨ m'.Result (Event.choose chosen.events).Offers chosen.gate res
  future : ∀ {k guarded e}, m'.futures.Info k guarded → m'.futures.Holds k e →
    m.futures.Holds k e ∨ m'.FutureOk guarded e
  pass : ∀ {sync ids}, m'.syncs.Holds sync ids →
    m.syncs.Holds sync ids ∨ ∃ a u, m'.Commits sync a u
  gate : ∀ {g sync}, m'.gates.Info g sync → m.gates.Info g sync ∨
    (g = m.gates.length ∧ (∀ g', m.gates.Info g' sync → m.Dead g') ∧
      ∃ event, m'.syncs.Info sync ⟨event, i⟩)
  returned : ∀ {r}, r ∈ m'.returned → r ∈ m.returned ∨
    ∃ synced g, m'.syncs.Info r.sync synced ∧ m'.gates.Info g r.sync ∧
      m'.Result synced.event.Offers g (some r.value)

omit [Values α] in
theorem Shared.LeftMove.mono {call : Couple.Call (Option α) Unit} (h : m.LeftMove call)
    (hext : m.Extends m') : m'.LeftMove call := by
  obtain ⟨⟨n, hagreed⟩, hvalue⟩ := h
  refine ⟨⟨n, hagreed.mono hext.chans⟩, ?_⟩
  intro v hv
  obtain ⟨l, hl, hlv, hholds⟩ := hvalue v hv
  exact ⟨l, hext.chans.lefts hl, hlv, hholds.mono hext.gates⟩

omit [Values α] in
theorem Shared.RightMove.mono {call : Couple.Call Bool Nat} (h : m.RightMove call)
    (hext : m.Extends m') : m'.RightMove call := by
  obtain ⟨hagreed, hvalue⟩ := h
  refine ⟨hagreed.mono hext.chans, ?_⟩
  intro hv
  obtain ⟨r, hr, hholds⟩ := hvalue hv
  exact ⟨r, hext.chans.rights hr, hholds.mono hext.gates⟩

omit [Values α] in
theorem Shared.AttemptOk.mono {g : Nat} {a : Attempt α} (h : m.AttemptOk g a)
    (hext : m.Extends m') : m'.AttemptOk g a := by
  cases a with
  | send c =>
    obtain ⟨l, hl, hg⟩ := h
    exact ⟨l, hext.chans.lefts hl, hg⟩
  | recv c n =>
    obtain ⟨hagreed, r, hr, hg⟩ := h
    exact ⟨hagreed.mono hext.chans, r, hext.chans.rights hr, hg⟩
  | always x => trivial
  | nack pass self =>
    obtain ⟨ids, hholds, hself⟩ := h
    exact ⟨ids, hholds.mono hext.syncs, hself⟩

theorem Adds.left_unique (hok : m.Ok) (h : Adds i m m') {k k' : Nat}
    {call call' : Couple.Call (Option α) Unit} (hk : m'.pipes.lefts[k]? = some call)
    (hk' : m'.pipes.lefts[k']? = some call') (hsame : call.couple = call'.couple) : k = k' := by
  rcases h.left hk with hold | ⟨rfl, hno, -⟩ <;> rcases h.left hk' with hold' | ⟨rfl, hno', -⟩
  · exact hok.left_unique hold hold' hsame
  · exact absurd hsame (hno' k call hold)
  · exact absurd hsame.symm (hno k' call' hold')
  · rfl

theorem Adds.right_unique (hok : m.Ok) (h : Adds i m m') {k k' : Nat}
    {call call' : Couple.Call Bool Nat} (hk : m'.pipes.rights[k]? = some call)
    (hk' : m'.pipes.rights[k']? = some call') (hsame : call.couple = call'.couple) :
    k = k' := by
  have hmove : ∀ {k : Nat} {call : Couple.Call Bool Nat}, m.pipes.rights[k]? = some call →
      m'.chans.Agreed call.couple call.info :=
    fun hold => (hok.right hold).1.mono h.grows.chans
  rcases h.right hk with hold | ⟨rfl, hno, hnew, -⟩ <;>
    rcases h.right hk' with hold' | ⟨rfl, hno', hnew', -⟩
  · exact hok.right_unique hold hold' hsame
  · have hagreed := hmove hold
    rw [hsame] at hagreed
    exact absurd (h.chans.agreed_left hagreed hnew'.1) (hno' k call hold)
  · have hagreed := hmove hold'
    rw [← hsame] at hagreed
    exact absurd (h.chans.agreed_left hagreed hnew.1) (hno k' call' hold')
  · rfl

theorem Adds.single (hok : m.Ok) (h : Adds i m m') (sync : Nat) :
    ∃ g, ∀ g', m'.gates.Info g' sync → g' = g ∨ m'.Dead g' := by
  by_cases hnew : ∃ g, m'.gates.Info g sync ∧ ¬ m.gates.Info g sync
  · obtain ⟨g, hinfo, hnone⟩ := hnew
    obtain ⟨rfl, hdead, -⟩ := (h.gate hinfo).resolve_left hnone
    refine ⟨m.gates.length, ?_⟩
    intro g' hg'
    rcases h.gate hg' with hold | ⟨heq, -⟩
    · exact .inr ((hdead g' hold).mono h.grows)
    · exact .inl heq
  · obtain ⟨g, hsingle⟩ := hok.single sync
    refine ⟨g, ?_⟩
    intro g' hg'
    have hold : m.gates.Info g' sync := by
      by_contra hnone
      exact hnew ⟨g', hg', hnone⟩
    exact (hsingle g' hold).imp_right fun hdead => hdead.mono h.grows

theorem Adds.ok (h : Adds i m m') (hok : m.Ok) : m'.Ok where
  chans := h.chans
  pipes := h.pipes
  nextPipe := h.nextPipe
  pipe hcall := (h.pipe hcall).elim hok.pipe id
  left hcall := (h.left hcall).elim (fun hold => (hok.left hold).mono h.grows)
    fun hnew => hnew.2.2.1
  left_unique := h.left_unique hok
  right hcall := (h.right hcall).elim (fun hold => (hok.right hold).mono h.grows)
    fun hnew => hnew.2.2.1
  right_unique := h.right_unique hok
  attempt hholds := (h.attempt hholds).elim (fun hold => (hok.attempt hold).mono h.grows) id
  ret hinfo hholds := by
    rcases h.ret hinfo hholds with hold | hnew
    · obtain ⟨chosen, hinfo'⟩ := hold.info
      cases (hinfo'.mono h.grows.rets).unique hinfo
      exact (hok.ret hinfo' hold).mono h.grows
    · exact hnew
  future hinfo hholds := by
    rcases h.future hinfo hholds with hold | hnew
    · obtain ⟨guarded, hinfo'⟩ := hold.info
      cases (hinfo'.mono h.grows.futures).unique hinfo
      exact (hok.future hinfo' hold).mono h.grows
    · exact hnew
  pass hholds := by
    rcases h.pass hholds with hold | hnew
    · obtain ⟨a, u, hcommits⟩ := hok.pass hold
      exact ⟨a, u, hcommits.mono h.grows⟩
    · exact hnew
  gate hinfo := by
    rcases h.gate hinfo with hold | ⟨-, -, event, hsync⟩
    · obtain ⟨synced, hsync⟩ := hok.gate hold
      exact ⟨synced, hsync.mono h.grows.syncs⟩
    · exact ⟨_, hsync⟩
  single := h.single hok
  returned hr := by
    rcases h.returned hr with hold | hnew
    · obtain ⟨synced, g, hsync, hgate, hresult⟩ := hok.returned hold
      exact ⟨synced, g, hsync.mono h.grows.syncs, hgate.mono h.grows.gates,
        hresult.mono h.grows⟩
    · exact hnew

theorem Adds.refl (hok : m.Ok) : Adds i m m where
  grows := .refl m
  chans := hok.chans
  pipes := hok.pipes
  nextPipe := hok.nextPipe
  pipe := .inl
  left := .inl
  right := .inl
  attempt := .inl
  ret _ := .inl
  future _ := .inl
  pass := .inl
  gate := .inl
  returned := .inl

theorem Adds.changes (h : Adds i m m') : Changes i m m' where
  grows := h.grows
  lefts _ _ hcall := (h.left hcall).imp_right fun hnew => hnew.2.2.2
  rights _ _ hcall := (h.right hcall).imp_right fun hnew => hnew.2.2.2
  gates _ _ hinfo := (h.gate hinfo).imp_right fun hnew => hnew.2.2

omit [Values α] in
theorem Changes.refl (m : Shared α) : Changes i m m where
  grows := .refl m
  lefts _ _ := .inl
  rights _ _ := .inl
  gates _ _ := .inl

omit [Values α] in
theorem Changes.trans (h : Changes i m m') (h' : Changes i m' m'') : Changes i m m'' where
  grows := h.grows.trans h'.grows
  lefts k call hcall := by
    rcases h'.lefts k call hcall with hmid | hnew
    · refine (h.lefts k call hmid).imp_right ?_
      rintro ⟨l, hl, hthread⟩
      exact ⟨l, h'.grows.chans.lefts hl, hthread⟩
    · exact .inr hnew
  rights k call hcall := by
    rcases h'.rights k call hcall with hmid | hnew
    · refine (h.rights k call hmid).imp_right ?_
      rintro ⟨r, hr, hthread⟩
      exact ⟨r, h'.grows.chans.rights hr, hthread⟩
    · exact .inr hnew
  gates g sync hinfo := by
    rcases h'.gates g sync hinfo with hmid | hnew
    · refine (h.gates g sync hmid).imp_right ?_
      rintro ⟨event, hsync⟩
      exact ⟨event, hsync.mono h'.grows.syncs⟩
    · exact .inr hnew

end SmlSharp.CML
