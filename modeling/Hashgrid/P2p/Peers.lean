import Hashgrid.P2p.Server

/-!
# The map of the peers

The check for a duplicate in `HandleConn` and the registration in `run` are two steps, and
several connections of one ID can be between them. `run` checks again, and removes an
entry only when the `runPeer` of the entry has ended. So the map holds just the peers
whose `runPeer` is live.
-/

namespace Hashgrid.P2p

open Hashgrid.Bytes Hashgrid.Core Hashgrid.Machine Hashgrid.Wire

/-- The ID under which a `runPeer` is live on a connection. -/
def Conn.live (c : Conn) : Option Address :=
  match c.stage with
  | .peer p => if p.runner = .returned then none else some p.id
  | _ => none

/-- The ID that a connection has got from its handshake. -/
def Conn.claimed (c : Conn) : Option Address :=
  match c.stage with
  | .lookup id | .offer id => some id
  | .peer p => some p.id
  | _ => none

variable {c c' : Conn} {s : Server} {a : ConnAct}

/-- A live peer has its ID from the handshake. -/
theorem Conn.claimed_of_live {a : Address} (h : c.live = some a) : c.claimed = some a := by
  unfold live at h
  split at h
  · next p hstage =>
    split_ifs at h
    cases h
    simp only [claimed, hstage]
  · cases h

/-- What a step does to the ID under which a `runPeer` is live. -/
theorem Conn.Moves.live (h : c.Moves s c' a) :
    (∃ id, a = .offer ∧ c.stage = .offer id ∧ s.peers.lookup id = none ∧ c'.live = some id) ∨
    (∃ id, a = .offer ∧ c.stage = .offer id ∧ (s.peers.lookup id).isSome ∧ c'.live = none) ∨
    (∃ p, a = .drop ∧ c.stage = .peer p ∧ p.runner = .dropping ∧ c'.live = none) ∨
    a ≠ .offer ∧ a ≠ .drop ∧ c'.live = c.live := by
  cases h with
  | outside hact hstage =>
    exact Or.inr (Or.inr (Or.inr ⟨hact.1, hact.2, by simp only [Conn.live, hstage]⟩))
  | greet hact hstage hnext =>
    exact Or.inr (Or.inr (Or.inr ⟨hact ▸ nofun, hact ▸ nofun, by
      simp only [Conn.live, hstage, hnext]⟩))
  | refuse hact hstage hnext =>
    refine Or.inr (Or.inr (Or.inr ⟨hact.1, hact.2, ?_⟩))
    rcases hstage with hstage | ⟨id, hstage⟩ <;> simp only [Conn.live, hstage, hnext]
  | introduce id hact hstage hnext =>
    exact Or.inr (Or.inr (Or.inr ⟨hact ▸ nofun, hact ▸ nofun, by
      simp only [Conn.live, hstage, hnext]⟩))
  | lookup id hact hstage hnext =>
    refine Or.inr (Or.inr (Or.inr ⟨?_, ?_, by simp only [Conn.live, hstage, hnext]⟩)) <;>
      rcases hact with rfl | rfl <;> nofun
  | known id hact hstage hfound hnext =>
    exact Or.inr (Or.inl ⟨id, hact, hstage, hfound, by simp only [Conn.live, hnext]⟩)
  | register id hact hstage hnew hnext =>
    exact Or.inl ⟨id, hact, hstage, hnew, by simp [Conn.live, hnext, newPeer]⟩
  | reject id hact hstage _ hnext =>
    exact Or.inr (Or.inr (Or.inr ⟨hact ▸ nofun, hact ▸ nofun, by
      simp only [Conn.live, hstage, hnext]⟩))
  | read p reader hact hstage hnext =>
    exact Or.inr (Or.inr (Or.inr ⟨hact.1, hact.2, by simp only [Conn.live, hstage, hnext]⟩))
  | readEnd p err hact hstage _ hnext =>
    exact Or.inr (Or.inr (Or.inr ⟨hact.1, hact.2, by simp only [Conn.live, hstage, hnext]⟩))
  | readErr p err hact hstage hrunner _ hnext =>
    refine Or.inr (Or.inr (Or.inr ⟨hact ▸ nofun, hact ▸ nofun, ?_⟩))
    simp only [Conn.live, hstage, hnext, hrunner]
    split_ifs <;> simp_all
  | close p hact hstage hrunner hnext =>
    refine Or.inr (Or.inr (Or.inr ⟨hact ▸ nofun, hact ▸ nofun, ?_⟩))
    simp [Conn.live, hstage, hnext, hrunner]
  | drop p hact hstage hrunner hnext =>
    exact Or.inr (Or.inr (Or.inl ⟨p, hact, hstage, hrunner, by simp [Conn.live, hnext]⟩))

/-- An ID comes from a handshake, and is not the server's own. -/
theorem Conn.Moves.claimed (h : c.Moves s c' a) :
    ∀ id ∈ c'.claimed, id ∈ c.claimed ∨ a = .handshake ∧ id ≠ s.id := by
  intro id hid
  cases h with
  | introduce id' hact _ hnext hother =>
    simp only [Conn.claimed, hnext, Option.mem_some_iff] at hid
    exact Or.inr ⟨hact, hid ▸ hother⟩
  | outside _ hstage => exact Or.inl (by simpa only [Conn.claimed, hstage] using hid)
  | greet _ _ hnext => simp [Conn.claimed, hnext] at hid
  | refuse _ _ hnext => simp [Conn.claimed, hnext] at hid
  | known _ _ _ _ hnext => simp [Conn.claimed, hnext] at hid
  | reject _ _ _ _ hnext => simp [Conn.claimed, hnext] at hid
  | lookup _ _ hstage hnext => exact Or.inl (by simpa only [Conn.claimed, hstage, hnext] using hid)
  | register _ _ hstage _ hnext =>
    exact Or.inl (by simpa only [Conn.claimed, hstage, hnext, newPeer] using hid)
  | read _ _ _ hstage hnext => exact Or.inl (by simpa only [Conn.claimed, hstage, hnext] using hid)
  | readEnd _ _ _ hstage _ hnext =>
    exact Or.inl (by simpa only [Conn.claimed, hstage, hnext] using hid)
  | readErr _ _ _ hstage _ _ hnext =>
    exact Or.inl (by simpa only [Conn.claimed, hstage, hnext] using hid)
  | close _ _ hstage _ hnext => exact Or.inl (by simpa only [Conn.claimed, hstage, hnext] using hid)
  | drop _ _ hstage _ hnext => exact Or.inl (by simpa only [Conn.claimed, hstage, hnext] using hid)

namespace Server

/-- The ID under which a `runPeer` is live on a connection of the server. -/
def liveAt (s : Server) (i : ℕ) : Option Address := s.conns[i]?.bind Conn.live

/-- What is claimed of the map: entries are keyed by the IDs of their peers, at most one `runPeer`
is live for an ID, and the server's own ID is not a key. -/
structure PeersKept (s : Server) : Prop where
  /-- The keys. -/
  keyed : ∀ a i, s.peers.lookup a = some i →
    ∃ c p, s.conns[i]? = some c ∧ c.stage = .peer p ∧ p.id = a
  /-- Live peers. -/
  once : ∀ i j a, s.liveAt i = some a → s.liveAt j = some a → i = j
  /-- The own ID. -/
  own : s.peers.lookup s.id = none

/-- When `run` removes a peer, the entry under its ID is the peer itself. -/
def DropsItself (s : Server) : ServerAct → Prop
  | .conn i .drop => ∀ c p, s.conns[i]? = some c → c.stage = .peer p → p.runner = .dropping →
      s.peers.lookup p.id = some i
  | _ => True

/-- The map holds just the live peers, and no connection has the server's own ID. -/
structure Registered (s : Server) : Prop where
  /-- The map. -/
  map : ∀ a i, s.peers.lookup a = some i ↔ s.liveAt i = some a
  /-- The IDs. -/
  own : ∀ c ∈ s.conns, ∀ a ∈ c.claimed, a ≠ s.id

/-- The map is as claimed. -/
theorem Registered.peersKept (h : s.Registered) : s.PeersKept := by
  refine ⟨fun a i hi => ?_, fun i j a hi hj => ?_, ?_⟩
  · obtain ⟨c, hc, hlive⟩ := Option.bind_eq_some_iff.mp ((h.map a i).mp hi)
    unfold Conn.live at hlive
    split at hlive
    · next p hstage =>
      split_ifs at hlive
      exact ⟨c, p, hc, hstage, Option.some.inj hlive⟩
    · cases hlive
  · have hi := (h.map a i).mpr hi
    have hj := (h.map a j).mpr hj
    exact Option.some.inj (hi.symm.trans hj)
  · cases hown : s.peers.lookup s.id with
    | none => rfl
    | some i =>
      obtain ⟨c, hc, hlive⟩ := Option.bind_eq_some_iff.mp ((h.map s.id i).mp hown)
      exact absurd rfl (h.own c (List.mem_of_getElem? hc) s.id (Conn.claimed_of_live hlive))

/-- A peer that is removed is the one in the map. -/
theorem Registered.dropsItself (h : s.Registered) (a : ServerAct) : s.DropsItself a := by
  cases a with
  | conn i a =>
    cases a with
    | drop =>
      intro c p hc hstage hrunner
      refine (h.map p.id i).mpr ?_
      simp [liveAt, hc, Conn.live, hstage, hrunner]
    | _ => trivial
  | _ => trivial

/-- A new connection has no peer. -/
theorem Registered.newConn (h : s.Registered) :
    Registered { s with conns := s.conns ++ [P2p.newConn] } := by
  refine ⟨fun a i => ?_, fun c hc a ha => ?_⟩
  · rw [h.map a i]
    unfold liveAt
    dsimp only
    rw [List.getElem?_append]
    split_ifs with hlt
    · rfl
    · rw [List.getElem?_eq_none (by omega)]
      cases hi : i - s.conns.length <;> simp [P2p.newConn, Conn.live]
  · rcases List.mem_append.mp hc with hold | hnew
    · exact h.own c hold a ha
    · rw [List.mem_singleton.mp hnew] at ha
      cases ha

/-- A step on a connection keeps the map right. -/
theorem Registered.conn (h : s.Registered) {i : ℕ} (hc : s.conns[i]? = some c)
    (hmoves : c.Moves s c' a) (jp : JPGraph) :
    Registered { s with
      conns := s.conns.set i c', peers := s.peersAfter i c a, jp := jp } := by
  have hlt : i < s.conns.length := (List.getElem?_eq_some_iff.mp hc).1
  have hliveAt (j : ℕ) : liveAt { s with
      conns := s.conns.set i c', peers := s.peersAfter i c a, jp := jp } j =
      if j = i then c'.live else s.liveAt j := by
    unfold liveAt
    dsimp only
    rw [List.getElem?_set]
    by_cases hj : i = j
    · simp [hj, hj ▸ hlt]
    · simp [hj, Ne.symm hj]
  have hold : s.liveAt i = c.live := by simp [liveAt, hc]
  refine ⟨fun x j => ?_, fun d hd x hx => ?_⟩
  · rw [hliveAt]
    have hmap := h.map x j
    rcases hmoves.live with ⟨id, rfl, hstage, hnew, hlive⟩ | ⟨id, rfl, hstage, hfound, hlive⟩ |
      ⟨p, rfl, hstage, hrunner, hlive⟩ | ⟨hoffer, hdrop, hlive⟩
    · have hnone : s.liveAt i = none := by simp [hold, Conn.live, hstage]
      have hpeers : s.peersAfter i c .offer = s.peers.insert id i := by
        simp [peersAfter, hstage, hnew]
      rw [hpeers, hlive]
      by_cases hx : x = id
      · subst hx
        rw [AList.lookup_insert]
        split_ifs with hj
        · simp [hj]
        · rw [← hmap, hnew]
          simp [Ne.symm hj]
      · rw [AList.lookup_insert_ne hx, hmap]
        split_ifs with hj
        · simp [hj, hnone, Ne.symm hx]
        · rfl
    · have hnone : s.liveAt i = none := by simp [hold, Conn.live, hstage]
      have hpeers : s.peersAfter i c .offer = s.peers := by simp [peersAfter, hstage, hfound]
      rw [hpeers, hlive, hmap]
      by_cases hj : j = i
      · simp [hj, hnone]
      · rw [if_neg hj]
    · have hsome : s.liveAt i = some p.id := by simp [hold, Conn.live, hstage, hrunner]
      have hpeers : s.peersAfter i c .drop = s.peers.erase p.id := by simp [peersAfter, hstage]
      rw [hpeers, hlive]
      by_cases hx : x = p.id
      · subst hx
        rw [AList.lookup_erase]
        split_ifs with hj
        · rfl
        · rw [← hmap, (h.map p.id i).mpr hsome]
          simp [Ne.symm hj]
      · rw [AList.lookup_erase_ne hx, hmap]
        split_ifs with hj
        · simp [hj, hsome, Ne.symm hx]
        · rfl
    · have hpeers : s.peersAfter i c a = s.peers := by
        cases a with
        | offer => exact absurd rfl hoffer
        | drop => exact absurd rfl hdrop
        | _ => rfl
      rw [hpeers, hlive, hmap]
      split_ifs with hj
      · rw [hj, hold]
      · rfl
  · rcases List.mem_or_eq_of_mem_set hd with hold | rfl
    · exact h.own d hold x hx
    · rcases hmoves.claimed x hx with hold | ⟨-, hother⟩
      · exact h.own c (List.mem_of_getElem? hc) x hold
      · exact hother

/-- Every step keeps the map right. -/
theorem Registered.step (h : s.Registered) (a : ServerAct) : Ensures (s.step a) Registered := by
  intro s' hs'
  cases s.step_moves a s' hs' with
  | connect _ _ hnext => exact hnext ▸ h.newConn
  | graph jp hnext => exact hnext ▸ ⟨h.map, h.own⟩
  | stop hnext => exact hnext ▸ ⟨h.map, h.own⟩
  | exit _ hnext => exact hnext ▸ ⟨h.map, h.own⟩
  | conn i a c c' hc hmoves hnext => exact hnext ▸ h.conn hc hmoves _

theorem registered_newServer (id : Address) (jp : JPGraph) : (newServer id jp).Registered :=
  ⟨fun a i => by simp [newServer, liveAt], fun c hc => nomatch hc⟩

/-- In every run the map is as claimed, and `run` removes no peer other than the one that has
ended. -/
theorem peersKept_of_run {id : Address} {jp : JPGraph} {acts : List ServerAct} {s : Server}
    (hrun : run Server.step (newServer id jp) acts = .ok s) :
    s.PeersKept ∧ Meets Server.step DropsItself (newServer id jp) acts := by
  have hinit := registered_newServer id jp
  refine ⟨(run_preserves (fun s a h => Registered.step h a) hinit acts s hrun).peersKept, ?_⟩
  exact (meets_true _ _).of_invariant (fun s a h _ => ⟨h.dropsItself a, h.step a⟩) hinit

/-- Two remote ends introduce themselves to node `0x0a` as node `0x0b`. Both handshakes are read
before one of them is registered. The peer then ends because its connection breaks. -/
def twoIntroductions : List ServerAct :=
  [.accept, .accept] ++
    [0, 1].flatMap (fun i => [.conn i .greet,
      .conn i (.remote (newConn.sendHandshake (FixedBytes.ofNat 20 0x0B))),
      .conn i .handshake, .conn i .lookup]) ++
    [.conn 1 .offer, .conn 0 .offer, .conn 1 (.leave .broken), .conn 1 .read, .conn 1 .readErr,
      .conn 1 .close, .conn 1 .drop]

/-- Node `0x0a` after the first of these steps. -/
def introduced (n : ℕ) : Server :=
  (run Server.step (newServer (FixedBytes.ofNat 20 0x0A) Node.idleGraph)
    (twoIntroductions.take n)).toOption.getD (newServer (FixedBytes.ofNat 20 0x0A) Node.idleGraph)

/-- One of two connections of node `0x0b` becomes a peer and is removed when it has ended. -/
theorem peersKept_introduced :
    (introduced 12).peers.lookup (FixedBytes.ofNat 20 0x0B) = some 1 ∧
      (introduced 12).PeersKept ∧ (introduced 17).peers.lookup (FixedBytes.ofNat 20 0x0B) = none ∧
      Meets Server.step DropsItself (newServer (FixedBytes.ofNat 20 0x0A) Node.idleGraph)
        (twoIntroductions.take 17) := by
  have hrun (n : ℕ) (hn : (run Server.step (newServer (FixedBytes.ofNat 20 0x0A) Node.idleGraph)
      (twoIntroductions.take n)).toOption.isSome = true) :
      run Server.step (newServer (FixedBytes.ofNat 20 0x0A) Node.idleGraph)
        (twoIntroductions.take n) = .ok (introduced n) := eq_ok_getD hn _
  exact ⟨by decide +kernel, (peersKept_of_run (hrun 12 (by decide +kernel))).1, by decide +kernel,
    (peersKept_of_run (hrun 17 (by decide +kernel))).2⟩

end Server

end Hashgrid.P2p
