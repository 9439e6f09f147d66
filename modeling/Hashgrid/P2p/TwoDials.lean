import Hashgrid.P2p.Accounting

/-!
# Two nodes that dial each other

Each node decides on its own which of two connections is the duplicate. When one node has
made a peer on one connection and the other node on the other, each closes an end of the
connection that the other has kept, and an orderly end does not remove a peer.
-/

namespace Hashgrid.P2p

open Hashgrid.Bytes Hashgrid.Core Hashgrid.Machine Hashgrid.Wire

/-- Two servers. Connections with the same number at both are the two ends of one connection. -/
structure Link where
  /-- The first server. -/
  left : Server
  /-- The second server. -/
  right : Server

/-- What happens next at one of two servers. -/
inductive EndAct
  /-- `run` dials the other server. -/
  | dial
  /-- The other goroutines of the node change the graph. -/
  | graph (jp : JPGraph)
  /-- A step of the server on a connection, or a message that the node sends. -/
  | own (i : ℕ) (a : ConnAct)
  /-- The next bytes from the other end arrive. -/
  | deliver (i n : ℕ)
  /-- The other end has closed the connection, or the connection breaks. -/
  | leave (i : ℕ) (how : Ending)

/-- What happens next at two servers. -/
inductive LinkAct
  /-- At the first server. -/
  | left (a : EndAct)
  /-- At the second server. -/
  | right (a : EndAct)

namespace Link

/-- The servers in the other order. -/
def swap (l : Link) : Link := ⟨l.right, l.left⟩

/-- What the first server sees of a step. -/
def arrival (l : Link) : EndAct → Except Stop ServerAct
  | .dial => .ok .dial
  | .graph jp => .ok (.graph jp)
  | .own i a =>
    match a with
    | .remote _ | .leave _ => .error .blocked
    | _ => .ok (.conn i a)
  | .deliver i n =>
    match l.left.conns[i]?, l.right.conns[i]? with
    | some c, some d => .ok (.conn i (.remote ((d.written.drop c.sent.length).take n)))
    | _, _ => .error .blocked
  | .leave i how =>
    match l.left.conns[i]?, l.right.conns[i]? with
    | some c, some d =>
      -- an orderly end comes after all that was written
      if how = .broken ∨ d.closed ∧ c.sent = d.written then .ok (.conn i (.leave how))
      else .error .blocked
    | _, _ => .error .blocked

/-- One step at the first server. The other server accepts when this one dials. -/
def stepLeft (l : Link) (a : EndAct) : Except Stop Link := do
  let left ← l.left.step (← l.arrival a)
  match a with
  | .dial => return ⟨left, ← l.right.step .accept⟩
  | _ => return ⟨left, l.right⟩

/-- One step. -/
def step (l : Link) : LinkAct → Except Stop Link
  | .left a => l.stepLeft a
  | .right a => (l.swap.stepLeft a).map swap

/-- Nothing is on its way to the first server. -/
def Arrived (l : Link) : Prop :=
  ∀ i < l.left.conns.length, ∀ c ∈ l.left.conns[i]?, ∀ d ∈ l.right.conns[i]?,
    c.ending ≠ none ∨ c.sent = d.written ∧ d.closed = false

instance (l : Link) : Decidable l.Arrived :=
  inferInstanceAs (Decidable (∀ i < _, ∀ c ∈ l.left.conns[i]?, ∀ d ∈ l.right.conns[i]?, _))

/-- Neither server can take a step, and nothing is on its way. -/
def Quiet (l : Link) : Prop :=
  l.left.Quiet ∧ l.right.Quiet ∧ l.Arrived ∧ l.swap.Arrived

instance (l : Link) : Decidable l.Quiet := inferInstanceAs (Decidable (_ ∧ _ ∧ _ ∧ _))

/-- The entries of the two servers for each other are the two ends of one connection, and neither
end is closed. -/
def OneConnection (l : Link) : Prop :=
  ∀ i ∈ l.left.peers.lookup l.right.id, ∀ j ∈ l.right.peers.lookup l.left.id,
    i = j ∧ (∀ c ∈ l.left.conns[i]?, c.closed = false) ∧ ∀ d ∈ l.right.conns[j]?, d.closed = false

instance (l : Link) : Decidable l.OneConnection :=
  inferInstanceAs (Decidable (∀ i ∈ l.left.peers.lookup l.right.id,
    ∀ j ∈ l.right.peers.lookup l.left.id, _))

/-- When the first server makes a peer for the second, the second has none for the first, or has
it on the same connection. -/
def AlignedLeft (l : Link) : EndAct → Prop
  | .own i .offer => ∀ c ∈ l.left.conns[i]?, c.stage = .offer l.right.id →
      l.left.peers.lookup l.right.id = none → ∀ j ∈ l.right.peers.lookup l.left.id, j = i
  | _ => True

instance (l : Link) (a : EndAct) : Decidable (l.AlignedLeft a) := by
  unfold AlignedLeft
  split <;> infer_instance

/-- A server makes a peer for the other only on the connection on which the other has one. -/
def Aligned (l : Link) : LinkAct → Prop
  | .left a => l.AlignedLeft a
  | .right a => l.swap.AlignedLeft a

instance (l : Link) (a : LinkAct) : Decidable (l.Aligned a) := by
  unfold Aligned
  split <;> infer_instance

/-- The first server does not remove its peer for the second. -/
def KeepsLeft (l : Link) : EndAct → Prop
  | .own i .drop => ∀ c ∈ l.left.conns[i]?, c.live ≠ some l.right.id
  | _ => True

instance (l : Link) (a : EndAct) : Decidable (l.KeepsLeft a) := by
  unfold KeepsLeft
  split <;> infer_instance

/-- The second server reads the handshake on a connection when the first has made its peer on it, or
when it has a peer for the first already. Neither removes its peer for the other. -/
def InOrder (l : Link) : LinkAct → Prop
  | .left a => l.KeepsLeft a
  | .right (.own i .handshake) =>
    l.left.peers.lookup l.right.id = some i ∨ (l.right.peers.lookup l.left.id).isSome
  | .right a => l.swap.KeepsLeft a

instance (l : Link) (a : LinkAct) : Decidable (l.InOrder a) := by
  unfold InOrder
  split <;> infer_instance

end Link

/-- A closed connection has no holder, or a peer whose `Peer.run` has ended. -/
def Conn.ClosedLast (c : Conn) : Prop :=
  c.closed = true → c.stage = .abandoned ∨
    ∃ p, c.stage = .peer p ∧ (p.runner = .dropping ∨ p.runner = .returned)

variable {s : Server}

/-- Whoever closes a connection does nothing else with it. -/
theorem Conn.ClosedLast.step {c c' : Conn} {a : ConnAct} (h : c.ClosedLast)
    (hmoves : c.Moves s c' a) : c'.ClosedLast := by
  -- a connection that is held otherwise is open, and stays so
  have hopen {stage : Stage} (hstage : c.stage = stage) (hclosed : c'.closed = c.closed)
      (hheld : ¬ (stage = .abandoned ∨
        ∃ p, stage = .peer p ∧ (p.runner = .dropping ∨ p.runner = .returned))) :
      c'.ClosedLast := by
    intro hc'
    exact absurd (hstage ▸ h (hclosed.symm.trans hc')) hheld
  cases hmoves with
  | outside _ hstage _ hclosed =>
    intro hc'
    exact hstage ▸ h (hclosed.symm.trans hc')
  | greet _ hstage _ _ hclosed => exact hopen hstage hclosed (by simp)
  | refuse _ _ hnext => exact fun _ => Or.inl hnext
  | introduce id _ hstage _ _ hclosed => exact hopen hstage hclosed (by simp)
  | lookup id _ hstage _ hclosed => exact hopen hstage hclosed (by simp)
  | known id _ _ _ hnext => exact fun _ => Or.inl hnext
  | register id _ hstage _ _ hclosed => exact hopen hstage hclosed (by simp)
  | reject id _ _ _ hnext => exact fun _ => Or.inl hnext
  | read p reader _ hstage hnext _ hclosed =>
    intro hc'
    rcases h (hclosed.symm.trans hc') with habandoned | ⟨p', hp', hrunner⟩
    · cases hstage.symm.trans habandoned
    · cases hstage.symm.trans hp'
      exact Or.inr ⟨_, hnext, hrunner⟩
  | readEnd p err _ hstage _ hnext _ hclosed =>
    intro hc'
    rcases h (hclosed.symm.trans hc') with habandoned | ⟨p', hp', hrunner⟩
    · cases hstage.symm.trans habandoned
    · cases hstage.symm.trans hp'
      exact Or.inr ⟨_, hnext, hrunner⟩
  | readErr p err _ hstage hrunner _ _ hclosed => exact hopen hstage hclosed (by simp [hrunner])
  | close p _ _ _ hnext => exact fun _ => Or.inr ⟨_, hnext, Or.inl rfl⟩
  | drop p _ _ _ hnext => exact fun _ => Or.inr ⟨_, hnext, Or.inr rfl⟩

namespace Server

variable {a : ServerAct} {id x : Address}

/-- A new entry is made by `run` when it gets the connection. -/
theorem lookup_of_step : Ensures (s.step a) fun s' =>
    ∀ x j, s'.peers.lookup x = some j → s.peers.lookup x = some j ∨
      a = .conn j .offer ∧ s.peers.lookup x = none ∧
        ∃ c, s.conns[j]? = some c ∧ c.stage = .offer x := by
  intro s' hs'
  cases s.step_moves a s' hs' with
  | connect _ _ hnext => exact hnext ▸ fun _ _ hj => Or.inl hj
  | graph jp hnext => exact hnext ▸ fun _ _ hj => Or.inl hj
  | stop hnext => exact hnext ▸ fun _ _ hj => Or.inl hj
  | exit _ hnext => exact hnext ▸ fun _ _ hj => Or.inl hj
  | conn i act c c' hc hmoves hnext =>
    intro x j hj
    have hpeers : (s.peersAfter i c act).lookup x = some j := by
      rw [hnext] at hj
      exact hj
    clear hnext hmoves
    unfold peersAfter at hpeers
    split at hpeers
    · next id hstage =>
      split_ifs at hpeers with hfound
      · exact Or.inl hpeers
      · by_cases hx : x = id
        · subst hx
          rw [AList.lookup_insert] at hpeers
          cases hpeers
          exact Or.inr ⟨rfl, Option.not_isSome_iff_eq_none.mp hfound, c, hc, hstage⟩
        · rw [AList.lookup_insert_ne hx] at hpeers
          exact Or.inl hpeers
    · next p hstage =>
      by_cases hx : x = p.id
      · subst hx
        rw [AList.lookup_erase] at hpeers
        cases hpeers
      · rw [AList.lookup_erase_ne hx] at hpeers
        exact Or.inl hpeers
    · exact Or.inl hpeers

/-- An entry stays when its peer is not removed. -/
theorem lookup_stays {j : ℕ} (hj : s.peers.lookup x = some j)
    (hkeeps : ∀ i, a = .conn i .drop → ∀ c ∈ s.conns[i]?, c.live ≠ some x) :
    Ensures (s.step a) fun s' => s'.peers.lookup x = some j := by
  intro s' hs'
  cases s.step_moves a s' hs' with
  | connect _ _ hnext => exact hnext ▸ hj
  | graph jp hnext => exact hnext ▸ hj
  | stop hnext => exact hnext ▸ hj
  | exit _ hnext => exact hnext ▸ hj
  | conn i act c c' hc hmoves hnext =>
    rw [hnext]
    change (s.peersAfter i c act).lookup x = some j
    unfold peersAfter
    split
    · next id hstage =>
      split_ifs with hfound
      · exact hj
      · have hne : x ≠ id := by
          rintro rfl
          exact hfound (by rw [hj]; rfl)
        exact (AList.lookup_insert_ne hne).trans hj
    · next p hstage =>
      have hne : x ≠ p.id := by
        rintro rfl
        refine hkeeps i rfl c hc ?_
        cases hmoves with
        | drop p' _ hstage' hrunner _ _ =>
          cases hstage.symm.trans hstage'
          simp [Conn.live, hstage, hrunner]
        | _ => simp_all
      exact (AList.lookup_erase_ne hne).trans hj
    · exact hj

/-- An ID is claimed on a connection when `HandleConn` reads the handshake. -/
theorem claimed_of_step : Ensures (s.step a) fun s' =>
    ∀ i d x, s'.conns[i]? = some d → d.claimed = some x →
      a = .conn i .handshake ∨ ∃ c, s.conns[i]? = some c ∧ c.claimed = some x := by
  intro s' hs' i d x hd hx
  cases s.step_moves a s' hs' with
  | connect _ _ hnext =>
    rw [hnext, List.getElem?_append] at hd
    split_ifs at hd with hi
    · exact Or.inr ⟨d, hd, hx⟩
    · obtain rfl := List.mem_singleton.mp (List.mem_of_getElem? hd)
      cases hx
  | graph jp hnext => exact Or.inr ⟨d, by rw [hnext] at hd; exact hd, hx⟩
  | stop hnext => exact Or.inr ⟨d, by rw [hnext] at hd; exact hd, hx⟩
  | exit _ hnext => exact Or.inr ⟨d, by rw [hnext] at hd; exact hd, hx⟩
  | conn k act c c' hc hmoves hnext =>
    rw [hnext] at hd
    by_cases hik : k = i
    · subst hik
      have hlt := (List.getElem?_eq_some_iff.mp hc).1
      obtain rfl := Option.some.inj ((List.getElem?_set_self hlt).symm.trans hd)
      rcases hmoves.claimed x hx with hold | ⟨rfl, -⟩
      · exact Or.inr ⟨c, hc, hold⟩
      · exact Or.inl rfl
    · exact Or.inr ⟨d, (List.getElem?_set_ne hik).symm.trans hd, hx⟩

/-- What holds of a server that is not stopped. -/
structure Kept (id : Address) (s : Server) : Prop where
  /-- Its ID. -/
  id_eq : s.id = id
  /-- `run` is in its loop. -/
  running : s.running = true
  /-- The map. -/
  registered : s.Registered
  /-- Closed connections. -/
  closed : ∀ c ∈ s.conns, c.ClosedLast

theorem kept_newServer (id : Address) (jp : JPGraph) : (newServer id jp).Kept id :=
  ⟨rfl, rfl, registered_newServer id jp, fun _ hc => nomatch hc⟩

/-- A step that does not stop the server. -/
theorem Kept.step (h : s.Kept id) (hstop : a ≠ .stop) (hexit : a ≠ .exit) :
    Ensures (s.step a) (Kept id) := by
  have hon : Ensures (s.step a) fun s' => s'.id = s.id ∧ s'.running = s.running := by
    intro s' hs'
    cases s.step_moves a s' hs' with
    | connect _ _ hnext => exact hnext ▸ ⟨rfl, rfl⟩
    | graph jp hnext => exact hnext ▸ ⟨rfl, rfl⟩
    | stop _ => exact absurd rfl hstop
    | exit _ _ => exact absurd rfl hexit
    | conn _ _ _ _ _ _ hnext => exact hnext ▸ ⟨rfl, rfl⟩
  have hclosed : Ensures (s.step a) fun s' => ∀ c ∈ s'.conns, c.ClosedLast :=
    forall_conns_step nofun (fun _ _ _ _ _ _ hmoves hc => hc.step hmoves) h.closed
  exact fun s' hs' => ⟨(hon s' hs').1.trans h.id_eq, (hon s' hs').2.trans h.running,
    h.registered.step a s' hs', hclosed s' hs'⟩

/-- The connection of an entry of a quiet server is open. -/
theorem Kept.closed_of_lookup (h : s.Kept id) (hquiet : s.Quiet) {i : ℕ} {c : Conn}
    (hi : s.peers.lookup x = some i) (hc : s.conns[i]? = some c) : c.closed = false := by
  have hmem := List.mem_of_getElem? hc
  by_contra hclosed
  have hlive : c.live = some x := by
    have hat := (h.registered.map x i).mp hi
    simpa only [liveAt, hc, Option.bind_some] using hat
  have hidle := ((quiet_iff_idle s).mp hquiet).2 c hmem
  rcases h.closed c hmem (eq_true_of_ne_false hclosed) with habandoned | ⟨p, hp, hrunner⟩
  · simp [Conn.live, habandoned] at hlive
  · rcases hrunner with hrunner | hrunner
    -- `run` is in its loop, so a peer that has ended could still be removed
    · simp only [Conn.Idle, hp, hrunner, h.running, Bool.true_eq_false, and_false] at hidle
    · simp [Conn.live, hp, hrunner] at hlive

end Server

/-- Two servers that have just been started. -/
def newLink (a b : Address) (jpLeft jpRight : JPGraph) : Link :=
  ⟨newServer a jpLeft, newServer b jpRight⟩

namespace Link

/-- What holds as long as a server makes a peer only where the other has one. -/
structure Kept (a b : Address) (l : Link) : Prop where
  /-- The first server. -/
  left : l.left.Kept a
  /-- The second server. -/
  right : l.right.Kept b
  /-- The entries for each other. -/
  agree : ∀ i j, l.left.peers.lookup b = some i → l.right.peers.lookup a = some j → i = j

variable {l : Link} {a b : Address} {e : EndAct} {act : LinkAct}

theorem Kept.swap (h : l.Kept a b) : l.swap.Kept b a :=
  ⟨h.right, h.left, fun i j hi hj => (h.agree j i hj hi).symm⟩

/-- No step stops the first server, and it takes the steps of its goroutines as its own only. -/
theorem arrival_spec (l : Link) (e : EndAct) : Ensures (l.arrival e) fun a =>
    a ≠ .stop ∧ a ≠ .exit ∧ ∀ i act, (act = .offer ∨ act = .handshake ∨ act = .drop) →
      a = .conn i act → e = .own i act := by
  unfold arrival
  cases e with
  | dial => exact .ok ⟨nofun, nofun, nofun⟩
  | graph jp => exact .ok ⟨nofun, nofun, nofun⟩
  | own i a =>
    dsimp only
    split
    · exact .error
    · exact .error
    · refine .ok ⟨nofun, nofun, fun j act _ hj => ?_⟩
      cases hj
      rfl
  | deliver i n =>
    dsimp only
    split
    · exact .ok ⟨nofun, nofun, fun j act hact hj => by cases hj; simp at hact⟩
    · exact .error
  | leave i how =>
    dsimp only
    split
    · split_ifs
      · exact .ok ⟨nofun, nofun, fun j act hact hj => by cases hj; simp at hact⟩
      · exact .error
    · exact .error

/-- What a step at the first server is for the two servers. -/
theorem stepLeft_spec (l : Link) (e : EndAct) : Ensures (l.stepLeft e) fun l' =>
    ∃ a, l.arrival e = .ok a ∧ l.left.step a = .ok l'.left ∧
      (l'.right = l.right ∨ l.right.step .accept = .ok l'.right) := by
  unfold Link.stepLeft
  refine .bind (.self _) fun a ha => .bind (.self _) fun left hleft => ?_
  cases e with
  | dial => exact .bind (.self _) fun right hright => .ok ⟨a, ha, hleft, Or.inr hright⟩
  | _ => exact .ok ⟨a, ha, hleft, Or.inl rfl⟩

theorem peers_accept : Ensures (s.step .accept) fun s' => s'.peers = s.peers := by
  intro s' hs'
  cases s.step_moves .accept s' hs' with
  | connect _ _ hnext => exact hnext ▸ rfl

/-- A step at the first server. -/
theorem Kept.stepLeft (h : l.Kept a b) (hok : l.AlignedLeft e) :
    Ensures (l.stepLeft e) (Kept a b) := by
  intro l' hl'
  obtain ⟨act, hact, hleft, hright⟩ := l.stepLeft_spec e l' hl'
  obtain ⟨hstop, hexit, hown⟩ := l.arrival_spec e act hact
  obtain ⟨hkept, hpeers⟩ : l'.right.Kept b ∧ l'.right.peers = l.right.peers := by
    rcases hright with hsame | hstep
    · rw [hsame]
      exact ⟨h.right, rfl⟩
    · exact ⟨h.right.step (a := .accept) nofun nofun _ hstep, peers_accept _ hstep⟩
  refine ⟨h.left.step hstop hexit _ hleft, hkept, fun i j hi hj => ?_⟩
  rw [hpeers] at hj
  rcases Server.lookup_of_step _ hleft b i hi with hold | ⟨hoffer, hnone, c, hc, hstage⟩
  · exact h.agree i j hold hj
  · rw [hown i .offer (Or.inl rfl) hoffer] at hok
    rw [← h.right.id_eq] at hstage hnone
    rw [← h.left.id_eq] at hj
    exact (hok c hc hstage hnone j hj).symm

theorem Kept.step (h : l.Kept a b) (hok : l.Aligned act) : Ensures (l.step act) (Kept a b) := by
  cases act with
  | left e => exact h.stepLeft hok
  | right e => exact .map (h.swap.stepLeft hok) fun _ hr => hr.swap

/-- What holds as long as the second server reads handshakes after the first. -/
structure Led (a b : Address) (l : Link) : Prop where
  /-- The second has its peer where the first has one. -/
  made : ∀ j, l.right.peers.lookup a = some j → l.left.peers.lookup b = some j
  /-- It has read a handshake where the first has its peer, or it has a peer. -/
  reads : ∀ i d x, l.right.conns[i]? = some d → d.claimed = some x →
    l.left.peers.lookup b = some i ∨ ∃ j, l.right.peers.lookup a = some j

/-- A step at the first server. -/
theorem Led.stepLeft (h : l.Led a b) (hkept : l.Kept a b) (hok : l.KeepsLeft e) :
    l.AlignedLeft e ∧ Ensures (l.stepLeft e) (Led a b) := by
  constructor
  · unfold AlignedLeft
    split
    · intro c _ _ hnone j hj
      rw [hkept.right.id_eq] at hnone
      cases hnone.symm.trans (h.made j (hkept.left.id_eq ▸ hj))
    · trivial
  · intro l' hl'
    obtain ⟨act, hact, hleft, hright⟩ := l.stepLeft_spec e l' hl'
    obtain ⟨-, -, hown⟩ := l.arrival_spec e act hact
    have hstays {j : ℕ} (hj : l.left.peers.lookup b = some j) :
        l'.left.peers.lookup b = some j := by
      refine Server.lookup_stays hj (fun i hdrop c hc => ?_) _ hleft
      rw [hown i .drop (Or.inr (Or.inr rfl)) hdrop] at hok
      exact hkept.right.id_eq ▸ hok c hc
    obtain ⟨hpeers, hconns⟩ : l'.right.peers = l.right.peers ∧
        ∀ (i : ℕ) (d : Conn) (x : Address), l'.right.conns[i]? = some d → d.claimed = some x →
          ∃ c, l.right.conns[i]? = some c ∧ c.claimed = some x := by
      rcases hright with hsame | hstep
      · rw [hsame]
        exact ⟨rfl, fun i d x hd hx => ⟨d, hd, hx⟩⟩
      · refine ⟨peers_accept _ hstep, fun i d x hd hx => ?_⟩
        rcases Server.claimed_of_step _ hstep i d x hd hx with hact | hold
        · cases hact
        · exact hold
    refine ⟨fun j hj => hstays (h.made j (hpeers ▸ hj)), fun i d x hd hx => ?_⟩
    obtain ⟨c, hc, hclaimed⟩ := hconns i d x hd hx
    rw [hpeers]
    exact (h.reads i c x hc hclaimed).imp_left hstays

/-- A step at the second server. -/
theorem Led.stepRight (h : l.Led a b) (hkept : l.Kept a b) (hok : l.InOrder (.right e)) :
    l.swap.AlignedLeft e ∧ Ensures (l.swap.stepLeft e) fun l' => l'.swap.Led a b := by
  have hreads {i : ℕ} {c : Conn} (hc : l.right.conns[i]? = some c) {x : Address}
      (hstage : c.stage = .offer x) (hnone : l.right.peers.lookup a = none) :
      l.left.peers.lookup b = some i := by
    rcases h.reads i c x hc (by simp only [Conn.claimed, hstage]) with hmade | ⟨j, hj⟩
    · exact hmade
    · cases hnone.symm.trans hj
  constructor
  · unfold AlignedLeft
    split
    · next i =>
      intro c hc hstage hnone j hj
      have hi := hreads hc hstage (hkept.left.id_eq ▸ hnone)
      rw [← hkept.right.id_eq] at hi
      exact Option.some.inj (hj.symm.trans hi)
    · trivial
  · intro l' hl'
    obtain ⟨act, hact, hright, hleft⟩ := l.swap.stepLeft_spec e l' hl'
    obtain ⟨-, -, hown⟩ := l.swap.arrival_spec e act hact
    have hstays {j : ℕ} (hj : l.right.peers.lookup a = some j) :
        l'.left.peers.lookup a = some j := by
      refine Server.lookup_stays hj (fun i hdrop c hc => ?_) _ hright
      rw [hown i .drop (Or.inr (Or.inr rfl)) hdrop] at hok
      exact hkept.left.id_eq ▸ hok c hc
    have hpeers : l'.right.peers = l.left.peers := by
      rcases hleft with hsame | hstep
      · rw [hsame]
        rfl
      · exact peers_accept _ hstep
    constructor
    · intro j hj
      change l'.right.peers.lookup b = some j
      rw [hpeers]
      rcases Server.lookup_of_step _ hright a j hj with hold | ⟨-, hnone, c, hc, hstage⟩
      · exact h.made j hold
      · exact hreads hc hstage hnone
    · intro i d x hd hx
      change l'.right.peers.lookup b = some i ∨ ∃ j, l'.left.peers.lookup a = some j
      rw [hpeers]
      rcases Server.claimed_of_step _ hright i d x hd hx with hread | ⟨c, hc, hclaimed⟩
      · rw [hown i .handshake (Or.inr (Or.inl rfl)) hread] at hok
        rcases hok with hmade | hhas
        · exact Or.inl (hkept.right.id_eq ▸ hmade)
        · obtain ⟨j, hj⟩ := Option.isSome_iff_exists.mp hhas
          exact Or.inr ⟨j, hstays (hkept.left.id_eq ▸ hj)⟩
      · exact (h.reads i c x hc hclaimed).imp_right (Exists.imp fun _ hj => hstays hj)

/-- Steps in this order make peers where the other server has them. -/
theorem Led.step (h : l.Led a b) (hkept : l.Kept a b) (hok : l.InOrder act) :
    l.Aligned act ∧ Ensures (l.step act) (Led a b) := by
  cases act with
  | left e => exact h.stepLeft hkept hok
  | right e =>
    obtain ⟨haligned, hled⟩ := h.stepRight hkept hok
    exact ⟨haligned, .map hled fun _ hr => hr⟩

/-- In every run in which each server makes a peer for the other only on a connection on which the
other has its peer, if it has one, the entries of a quiet state are the two open ends of one
connection. Such a run is every one in which one of the servers reads handshakes after the other
and neither removes the other. -/
theorem oneConnection_of_aligned {a b : Address} {jpLeft jpRight : JPGraph}
    {acts : List LinkAct} {l : Link}
    (hrun : run Link.step (newLink a b jpLeft jpRight) acts = .ok l)
    (hmeets : Meets Link.step Aligned (newLink a b jpLeft jpRight) acts ∨
      Meets Link.step InOrder (newLink a b jpLeft jpRight) acts) (hquiet : l.Quiet) :
    l.OneConnection := by
  have hinit : (newLink a b jpLeft jpRight).Kept a b :=
    ⟨Server.kept_newServer a jpLeft, Server.kept_newServer b jpRight, nofun⟩
  have haligned : Meets Link.step Aligned (newLink a b jpLeft jpRight) acts := by
    rcases hmeets with haligned | horder
    · exact haligned
    · have hled : (newLink a b jpLeft jpRight).Led a b := ⟨nofun, nofun⟩
      have hstep (l : Link) (act : LinkAct) (h : l.Kept a b ∧ l.Led a b) (hok : l.InOrder act) :
          l.Aligned act ∧ Ensures (l.step act) fun l => l.Kept a b ∧ l.Led a b := by
        obtain ⟨haligned, hled⟩ := h.2.step h.1 hok
        exact ⟨haligned, fun l' hl' => ⟨h.1.step haligned l' hl', hled l' hl'⟩⟩
      exact Meets.of_invariant hstep ⟨hinit, hled⟩ horder
  have hkept := run_invariant (fun l act h hok => h.step hok) hinit haligned l hrun
  intro i hi j hj
  refine ⟨hkept.agree i j (hkept.right.id_eq ▸ hi) (hkept.left.id_eq ▸ hj), ?_, ?_⟩
  · exact fun c hc => hkept.left.closed_of_lookup hquiet.1 hi hc
  · exact fun d hd => hkept.right.closed_of_lookup hquiet.2.1 hj hd

/-- Nodes `0x0a` and `0x0b` dial each other, greet and get the greetings. -/
def greeted : List LinkAct :=
  [.left .dial, .right .dial] ++
    [0, 1].flatMap (fun i => [.left (.own i .greet), .right (.own i .greet)]) ++
    [0, 1].flatMap (fun i => [.left (.deliver i 64), .right (.deliver i 64)])

/-- Node `0x0b` makes its peer on the given connection, node `0x0a` on the first one. Each finds
the other connection to be a duplicate. -/
def choose (i : ℕ) : List LinkAct :=
  greeted ++ [.left (.own 0 .handshake), .left (.own 0 .lookup), .left (.own 0 .offer),
    .right (.own i .handshake), .right (.own i .lookup), .right (.own i .offer),
    .left (.own 1 .handshake), .left (.own 1 .lookup),
    .right (.own (1 - i) .handshake), .right (.own (1 - i) .lookup)]

/-- Both nodes keep the first connection and learn that the second is closed. -/
def sameChoice : List LinkAct := choose 0 ++ [.left (.leave 1 .eof), .right (.leave 1 .eof)]

/-- The nodes keep different connections and read the ends of them. -/
def otherChoice : List LinkAct :=
  choose 1 ++ [.left (.leave 0 .eof), .left (.own 0 .read), .left (.own 0 .readErr),
    .right (.leave 1 .eof), .right (.own 1 .read), .right (.own 1 .readErr)]

/-- The nodes look for a duplicate on both connections before they make peers on different ones. -/
def lateChoice : List LinkAct :=
  greeted ++ [0, 1].flatMap (fun i => [.left (.own i .handshake), .left (.own i .lookup),
      .right (.own i .handshake), .right (.own i .lookup)]) ++
    [.left (.own 0 .offer), .right (.own 1 .offer), .left (.own 1 .offer), .right (.own 0 .offer)]

/-- Nodes `0x0a` and `0x0b` before their first step. -/
def twoNodes : Link :=
  newLink (FixedBytes.ofNat 20 0x0A) (FixedBytes.ofNat 20 0x0B) Node.idleGraph Node.idleGraph

/-- The two nodes after some steps. -/
def afterActs (acts : List LinkAct) : Link := (run Link.step twoNodes acts).toOption.getD twoNodes

/-- Both nodes keep the first connection. -/
theorem oneConnection_sameChoice :
    (afterActs sameChoice).left.peers.lookup (FixedBytes.ofNat 20 0x0B) = some 0 ∧
      (afterActs sameChoice).right.peers.lookup (FixedBytes.ofNat 20 0x0A) = some 0 ∧
      (afterActs sameChoice).OneConnection := by
  have hrun : run Link.step twoNodes sameChoice = .ok (afterActs sameChoice) :=
    eq_ok_getD (by decide +kernel) _
  exact ⟨by decide +kernel, by decide +kernel,
    oneConnection_of_aligned hrun (.inr (by decide +kernel)) (by decide +kernel)⟩

/-- The nodes can come to rest with peers on different connections, of which the other node has
closed its end, or has left it open without a peer. -/
theorem not_oneConnection_otherChoice :
    (run Link.step twoNodes otherChoice = .ok (afterActs otherChoice) ∧
      (afterActs otherChoice).Quiet ∧ ¬ (afterActs otherChoice).OneConnection) ∧
    run Link.step twoNodes lateChoice = .ok (afterActs lateChoice) ∧
      (afterActs lateChoice).Quiet ∧ ¬ (afterActs lateChoice).OneConnection :=
  ⟨⟨eq_ok_getD (by decide +kernel) _, by decide +kernel⟩,
    eq_ok_getD (by decide +kernel) _, by decide +kernel⟩

end Link

end Hashgrid.P2p
