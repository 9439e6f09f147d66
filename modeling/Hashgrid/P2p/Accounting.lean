import Hashgrid.P2p.Peers

/-!
# What becomes of a connection

A connection of a server at rest should be closed or have a peer that still reads. It is
neither after an orderly end of the remote end, which `Peer.run` does not take as a reason
to leave its loop, after `run` has found a duplicate, after `HandleConn` has found the
server stopped, and as long as the remote end does not introduce itself.
-/

namespace Hashgrid.P2p

open Hashgrid.Bytes Hashgrid.Core Hashgrid.Machine Hashgrid.Wire

/-- Steps of the server itself, without new input. -/
def ConnAct.Internal : ConnAct → Prop
  | .remote _ | .leave _ | .write _ => False
  | _ => True

/-- The connection has a peer in the map whose `readLoop` is running. -/
def Conn.Served (s : Server) (i : ℕ) (c : Conn) : Prop :=
  match c.stage with
  | .peer p => s.peers.lookup p.id = some i ∧ p.reader ≠ .returned
  | _ => False

instance (s : Server) (i : ℕ) (c : Conn) : Decidable (c.Served s i) := by
  unfold Conn.Served
  split <;> infer_instance

namespace Server

/-- No step of the server is possible without new input. -/
def Quiet (s : Server) : Prop :=
  (∀ s', s.step .exit ≠ .ok s') ∧
    ∀ i a, a.Internal → ∀ s', s.step (.conn i a) ≠ .ok s'

/-- Every connection is closed or has a peer that reads. -/
def Accounted (s : Server) : Prop :=
  ∀ i < s.conns.length, ∀ c ∈ s.conns[i]?, c.closed = true ∨ c.Served s i

instance (s : Server) : Decidable s.Accounted :=
  inferInstanceAs (Decidable (∀ i < _, ∀ c ∈ s.conns[i]?, _))

end Server

namespace Conn

/-- The remote end has sent a complete first message or has left. -/
def Introduced (c : Conn) : Prop :=
  c.ending ≠ none ∨ (Wire.readMsg (some c.sent)).toOption.isSome

instance (c : Conn) : Decidable c.Introduced := inferInstanceAs (Decidable (_ ∨ _))

/-- The remote end has left in an orderly way, and what is left to read is nothing or just the
header of a message with a payload. -/
def EndsClean (c : Conn) : Prop :=
  c.ending = some .eof ∧ ((c.sent.drop c.taken).length = 0 ∨
    (c.sent.drop c.taken).length = 9 ∧ 0 < readInt32 ((c.sent.drop c.taken).drop 5))

instance (c : Conn) : Decidable c.EndsClean := inferInstanceAs (Decidable (_ ∧ (_ ∨ _)))

/-- The step does not lead out of the account: `run` gets a connection whose ID is not in the map,
`HandleConn` does not find the server stopped when it hands a connection over, and `readLoop`
does not come to an orderly end of its connection. -/
def Orderly (s : Server) (c : Conn) : ConnAct → Prop
  | .offer =>
    match c.stage with
    | .offer id => s.peers.lookup id = none
    | _ => True
  | .reject => s.quit = false
  | .read => ¬ c.EndsClean
  | _ => True

instance (s : Server) (c : Conn) (a : ConnAct) : Decidable (c.Orderly s a) := by
  unfold Conn.Orderly
  split <;> first | infer_instance | (split <;> infer_instance)

end Conn

/-- The step on a connection of the server does not lead out of the account. -/
def Server.Orderly (s : Server) : ServerAct → Prop
  | .conn i a => ∀ c ∈ s.conns[i]?, c.Orderly s a
  | _ => True

instance (s : Server) (a : ServerAct) : Decidable (s.Orderly a) := by
  unfold Server.Orderly
  split <;> infer_instance

/-- `ReadMsg` finds the end of the data just when nothing or only a header is left. -/
theorem readMsg_eq_eof_iff {wire : List UInt8} : Wire.readMsg (some wire) = .error .eof ↔
    wire.length = 0 ∨ wire.length = 9 ∧ 0 < readInt32 (wire.drop 5) := by
  unfold Wire.readMsg readFull
  by_cases hlen : 9 ≤ wire.length
  · simp only [if_pos hlen, bind, Except.bind, List.length_drop]
    by_cases hheader : wire.length = 9
    · have htake : wire.take 9 = wire := List.take_of_length_le (by omega)
      simp only [htake, hheader, Nat.sub_self, UInt32.lt_iff_toNat_lt]
      by_cases hsize : (readInt32 (wire.drop 5)).toNat ≤ 0
      · simp only [if_pos hsize]
        exact iff_of_false (fun h => nomatch h) fun h => by simp at h; omega
      · simp only [if_neg hsize, if_true]
        exact iff_of_true trivial (Or.inr ⟨trivial, by simp; omega⟩)
    · refine iff_of_false (fun h => ?_) (by omega)
      split_ifs at h with hsize hzero
      · cases h
      · omega
      · cases h
  · simp only [if_neg hlen, bind, Except.bind]
    split_ifs with hzero
    · simp [hzero]
    · simp only [Except.error.injEq, reduceCtorEq, false_iff]
      omega

/-- `readLoop` gets the error `EOF` at an orderly end only. -/
theorem Conn.readMsg_eq_eof_iff (c : Conn) : c.readMsg = .ok (.error "EOF") ↔ c.EndsClean := by
  unfold Conn.readMsg EndsClean
  rw [← P2p.readMsg_eq_eof_iff]
  cases hread : Wire.readMsg (some (c.sent.drop c.taken)) with
  | ok r => simp
  | error err =>
    cases hending : c.ending with
    | none => simp
    | some how =>
      cases how with
      | eof => cases err <;> simp [errorText]
      | broken => simp

variable {s : Server} {c c' : Conn}

namespace Conn

/-- What holds of a connection as long as no step leads out of the account. -/
def Sound (c : Conn) : Prop :=
  match c.stage with
  | .greet | .handshake => c.taken = 0
  | .lookup _ | .offer _ => True
  | .abandoned => c.closed = true
  | .peer p =>
    match p.runner with
    | .waiting => p.readErr ≠ some "EOF" ∧ (p.readErr = none → p.reader ≠ .returned)
    | .leaving => True
    | .dropping | .returned => c.closed = true

/-- A step that does not lead out of the account. -/
theorem Sound.step {a : ConnAct} (h : c.Sound) (hmoves : c.Moves s c' a) (hok : c.Orderly s a) :
    c'.Sound := by
  unfold Sound at h ⊢
  cases hmoves with
  | outside _ hstage htaken hclosed => rwa [hstage, htaken, hclosed]
  | greet _ hstage hnext htaken =>
    rw [hstage] at h
    rw [hnext]
    exact htaken.trans h
  | refuse _ _ hnext hclosed =>
    rw [hnext]
    exact hclosed
  | introduce id _ _ hnext =>
    rw [hnext]
    trivial
  | lookup id _ _ hnext =>
    rw [hnext]
    trivial
  | known id hact hstage hfound =>
    subst hact
    have hnew : s.peers.lookup id = none := by simpa only [Orderly, hstage] using hok
    rw [hnew] at hfound
    cases hfound
  | register id _ _ _ hnext =>
    rw [hnext]
    exact ⟨nofun, fun _ => nofun⟩
  | reject id hact _ hquit =>
    subst hact
    exact absurd (hok.symm.trans hquit) Bool.false_ne_true
  | read p reader _ hstage hnext hon hclosed =>
    rw [hstage] at h
    rw [hnext]
    dsimp only at h ⊢
    cases hrunner : p.runner <;> rw [hrunner] at h
    · exact ⟨h.1, fun _ => hon⟩
    · trivial
    · exact hclosed.trans h
    · exact hclosed.trans h
  | readEnd p err _ hstage _ hnext heof hclosed =>
    rw [hstage] at h
    rw [hnext]
    dsimp only at h ⊢
    cases hrunner : p.runner <;> rw [hrunner] at h
    · refine ⟨fun herr => ?_, nofun⟩
      obtain ⟨rfl, hread⟩ := heof (Option.some.inj herr)
      exact hok (c.readMsg_eq_eof_iff.mp hread)
    · trivial
    · exact hclosed.trans h
    · exact hclosed.trans h
  | readErr p err _ hstage hrunner herr hnext =>
    rw [hstage] at h
    rw [hnext]
    dsimp only at h ⊢
    rw [hrunner] at h
    have hne : err ≠ "EOF" := fun heq => h.1 (herr.trans (congrArg some heq))
    rw [if_pos hne]
    trivial
  | close p _ _ _ hnext hclosed =>
    rw [hnext]
    exact hclosed
  | drop p _ hstage hrunner hnext hclosed =>
    rw [hstage] at h
    rw [hnext]
    dsimp only at h ⊢
    rw [hrunner] at h
    exact hclosed.trans h

/-- Nobody who holds the connection can take a step. -/
def Idle (s : Server) (c : Conn) : Prop :=
  match c.stage with
  | .greet => False
  | .handshake => c.readMsg.toOption.isSome = false
  | .lookup _ | .offer _ => s.running = false ∧ s.quit = false
  | .abandoned => True
  | .peer p =>
    (match p.reader with
      | .reading => c.readMsg.toOption.isSome = false
      | .handling msg => (Node.handle s.jp msg 0).toOption.isSome = false
      | .returned => True) ∧
    match p.runner with
    | .waiting => p.readErr = none
    | .leaving => False
    | .dropping => s.running = false
    | .returned => True

instance (s : Server) (c : Conn) : Decidable (c.Idle s) := by
  unfold Idle
  split <;> first | infer_instance | (split <;> split <;> infer_instance)

end Conn

/-- Whether the handler can go on does not depend on which match it takes. -/
theorem isSome_handle (jp : JPGraph) (msg : Msg) (pick : ℕ) :
    (Node.handle jp msg pick).toOption.isSome = (Node.handle jp msg 0).toOption.isSome := by
  by_cases hevent : msg.code = Node.eventMsg
  · rw [Node.handle_eventMsg jp hevent, Node.handle_eventMsg jp hevent]
  · unfold Node.handle
    split_ifs
    · rfl
    · rfl
    · rfl
    · cases jp.retrieveEvent (Node.decodeHash msg) pick <;>
        cases jp.retrieveEvent (Node.decodeHash msg) 0 <;> rfl
    · rfl
    · rfl

namespace Conn

/-- Nobody takes a step on an idle connection. -/
theorem Idle.step (h : c.Idle s) {a : ConnAct} (ha : a.Internal) : c.step s a ≠ .ok c' := by
  have hwait {β : Type} (hread : c.readMsg.toOption.isSome = false)
      (f : Except String (Msg × ℕ) → Except Stop β) (b : β) : (c.readMsg >>= f) ≠ .ok b := by
    cases hr : c.readMsg with
    | error stop => exact fun h => nomatch h
    | ok r =>
      rw [hr] at hread
      cases hread
  intro hstep
  unfold Idle at h
  unfold Conn.step at hstep
  cases a with
  | remote bytes => exact ha
  | leave how => exact ha
  | write msg => exact ha
  | greet =>
    dsimp only at hstep
    split at hstep
    · next hstage => simp only [hstage] at h
    · cases hstep
  | handshake =>
    dsimp only at hstep
    split at hstep
    · next hstage =>
      simp only [hstage] at h
      exact hwait h _ _ hstep
    · cases hstep
  | lookup =>
    dsimp only at hstep
    split at hstep
    · next id hstage =>
      simp only [hstage] at h
      rw [h.1] at hstep
      cases hstep
    · cases hstep
  | lookupQuit =>
    dsimp only at hstep
    split at hstep
    · next id hstage =>
      simp only [hstage] at h
      rw [h.2] at hstep
      cases hstep
    · cases hstep
  | offer =>
    dsimp only at hstep
    split at hstep
    · next id hstage =>
      simp only [hstage] at h
      rw [h.1] at hstep
      cases hstep
    · cases hstep
  | reject =>
    dsimp only at hstep
    split at hstep
    · next id hstage =>
      simp only [hstage] at h
      rw [h.2] at hstep
      cases hstep
    · cases hstep
  | read =>
    dsimp only at hstep
    split at hstep
    · next p hstage =>
      split at hstep
      · next hreader =>
        simp only [hstage, hreader] at h
        exact hwait h.1 _ _ hstep
      · cases hstep
    · cases hstep
  | handle pick =>
    dsimp only at hstep
    split at hstep
    · next p hstage =>
      split at hstep
      · next msg hreader =>
        simp only [hstage, hreader] at h
        have hblocked := (isSome_handle s.jp msg pick).trans h.1
        cases hhandle : Node.handle s.jp msg pick with
        | error stop =>
          rw [hhandle] at hstep
          cases hstep
        | ok hd =>
          rw [hhandle] at hblocked
          cases hblocked
      · cases hstep
    · cases hstep
  | readErr =>
    dsimp only at hstep
    split at hstep
    · next p hstage =>
      split at hstep
      · next err hrunner herr =>
        simp only [hstage, hrunner, herr] at h
        cases h.2
      · cases hstep
    · cases hstep
  | close =>
    dsimp only at hstep
    split at hstep
    · next p hstage =>
      split_ifs at hstep with hrunner
      simp only [hstage, hrunner] at h
      exact h.2
    · cases hstep
  | drop =>
    dsimp only at hstep
    split at hstep
    · next p hstage =>
      split_ifs at hstep with hrunner
      simp only [hstage, hrunner.1] at h
      rw [h.2] at hrunner
      cases hrunner.2
    · cases hstep

/-- A connection on which nobody can take a step is idle. -/
theorem idle_of_step (h : ∀ a : ConnAct, a.Internal → ∀ c', c.step s a ≠ .ok c') : c.Idle s := by
  unfold Idle
  cases hstage : c.stage with
  | greet => exact h .greet trivial _ (by simp only [Conn.step, hstage]; rfl)
  | handshake =>
    have hblocked := h .handshake trivial
    simp only [Conn.step, hstage] at hblocked
    cases hread : c.readMsg with
    | error stop => rfl
    | ok r =>
      simp only [hread, bind, Except.bind] at hblocked
      split at hblocked
      · exact (hblocked _ rfl).elim
      · split at hblocked
        · exact (hblocked _ rfl).elim
        · split_ifs at hblocked <;> exact (hblocked _ rfl).elim
  | lookup id =>
    have hlookup := h .lookup trivial
    have hquit := h .lookupQuit trivial
    simp only [Conn.step, hstage] at hlookup hquit
    constructor
    · by_contra hrun
      simp only [eq_true_of_ne_false hrun, if_true] at hlookup
      split_ifs at hlookup <;> exact hlookup _ rfl
    · by_contra hq
      simp only [eq_true_of_ne_false hq, if_true] at hquit
      exact hquit _ rfl
  | offer id =>
    have hoffer := h .offer trivial
    have hreject := h .reject trivial
    simp only [Conn.step, hstage] at hoffer hreject
    constructor
    · by_contra hrun
      simp only [eq_true_of_ne_false hrun, if_true] at hoffer
      split_ifs at hoffer <;> exact hoffer _ rfl
    · by_contra hq
      simp only [eq_true_of_ne_false hq, if_true] at hreject
      exact hreject _ rfl
  | abandoned => trivial
  | peer p =>
    constructor
    · cases hreader : p.reader with
      | reading =>
        have hblocked := h .read trivial
        simp only [Conn.step, hstage, hreader] at hblocked
        cases hread : c.readMsg with
        | error stop => rfl
        | ok r =>
          simp only [hread, bind, Except.bind] at hblocked
          split at hblocked <;> exact (hblocked _ rfl).elim
      | handling msg =>
        have hblocked := h (.handle 0) trivial
        simp only [Conn.step, hstage, hreader] at hblocked
        dsimp only
        cases hhandle : Node.handle s.jp msg 0 with
        | error stop => rfl
        | ok hd =>
          simp only [hhandle, bind, Except.bind] at hblocked
          split at hblocked <;> exact (hblocked _ rfl).elim
      | returned => trivial
    · cases hrunner : p.runner with
      | waiting =>
        have hblocked := h .readErr trivial
        dsimp only
        cases herr : p.readErr with
        | none => rfl
        | some err =>
          simp only [Conn.step, hstage, hrunner, herr] at hblocked
          exact (hblocked _ rfl).elim
      | leaving =>
        have hblocked := h .close trivial
        simp only [Conn.step, hstage, hrunner, if_true] at hblocked
        exact hblocked _ rfl
      | dropping =>
        have hblocked := h .drop trivial
        by_contra hrun
        simp only [Conn.step, hstage, hrunner, eq_true_of_ne_false hrun, and_self, if_true]
          at hblocked
        exact hblocked _ rfl
      | returned => trivial

/-- A first message or the end of the connection can be read. -/
theorem Introduced.isSome_readMsg (h : c.Introduced) (htaken : c.taken = 0) :
    c.readMsg.toOption.isSome = true := by
  unfold Introduced at h
  unfold Conn.readMsg
  rw [htaken, List.drop_zero]
  cases hread : Wire.readMsg (some c.sent) with
  | ok r => rfl
  | error err =>
    rw [hread] at h
    cases hending : c.ending with
    | none =>
      rw [hending] at h
      rcases h with h | h
      · exact absurd rfl h
      · cases h
    | some how => cases how <;> rfl

/-- An idle connection of a server that has not left the account is closed or has a peer that
reads. -/
theorem Sound.accounted {i : ℕ} (h : c.Sound) (hidle : c.Idle s)
    (hon : s.running = true ∨ s.quit = true) (hregistered : s.Registered)
    (hc : s.conns[i]? = some c) (hintroduced : c.Introduced) : c.closed = true ∨ c.Served s i := by
  unfold Sound at h
  unfold Idle at hidle
  cases hstage : c.stage with
  | greet =>
    rw [hstage] at hidle
    exact hidle.elim
  | handshake =>
    rw [hstage] at h hidle
    have hread := hintroduced.isSome_readMsg h
    rw [hidle] at hread
    cases hread
  | lookup id =>
    rw [hstage] at hidle
    simp [hidle] at hon
  | offer id =>
    rw [hstage] at hidle
    simp [hidle] at hon
  | abandoned =>
    rw [hstage] at h
    exact Or.inl h
  | peer p =>
    rw [hstage] at h hidle
    dsimp only at h hidle
    cases hrunner : p.runner with
    | waiting =>
      rw [hrunner] at h hidle
      -- the only way to stay open: `Peer.run` waits and no error is under way
      refine Or.inr ?_
      unfold Served
      rw [hstage]
      refine ⟨(hregistered.map p.id i).mpr ?_, h.2 hidle.2⟩
      simp [Server.liveAt, hc, Conn.live, hstage, hrunner]
    | leaving =>
      rw [hrunner] at hidle
      exact hidle.2.elim
    | dropping =>
      rw [hrunner] at h
      exact Or.inl h
    | returned =>
      rw [hrunner] at h
      exact Or.inl h

end Conn

namespace Server

/-- A server is quiet just when `run` has no reason to leave its loop and all connections are
idle. -/
theorem quiet_iff_idle (s : Server) :
    s.Quiet ↔ ¬ (s.running ∧ s.quit) ∧ ∀ c ∈ s.conns, c.Idle s := by
  unfold Quiet
  refine and_congr ?_ ⟨fun h c hc => ?_, fun h i a ha s' hstep => ?_⟩
  · unfold Server.step
    dsimp only
    split_ifs with hexit
    · exact iff_of_false (fun h => h _ rfl) (not_not.mpr hexit)
    · exact iff_of_true nofun hexit
  · obtain ⟨i, hi⟩ := List.mem_iff_getElem?.mp hc
    refine Conn.idle_of_step fun a ha c' hstep => ?_
    have hconn := h i a ha
    simp only [Server.step, hi, hstep] at hconn
    exact hconn _ rfl
  · cases hi : s.conns[i]? with
    | none =>
      simp only [Server.step, hi] at hstep
      cases hstep
    | some c =>
      simp only [Server.step, hi] at hstep
      obtain ⟨c', hc', _⟩ := exists_of_map_eq_ok hstep
      exact (h c (List.mem_of_getElem? hi)).step ha hc'

instance (s : Server) : Decidable s.Quiet :=
  decidable_of_iff _ (quiet_iff_idle s).symm

variable {a : ServerAct}

/-- What holds of new connections, and after every step of those of which it holds, holds of all
connections. -/
theorem forall_conns_step {P : Conn → Prop} (hnew : P newConn)
    (hmoves : ∀ i act c c', a = .conn i act → s.conns[i]? = some c → c.Moves s c' act → P c → P c')
    (h : ∀ c ∈ s.conns, P c) : Ensures (s.step a) fun s' => ∀ c ∈ s'.conns, P c := by
  intro s' hs'
  cases s.step_moves a s' hs' with
  | connect _ _ hnext =>
    intro c hc
    rw [hnext] at hc
    rcases List.mem_append.mp hc with hold | hadded
    · exact h c hold
    · exact List.mem_singleton.mp hadded ▸ hnew
  | graph jp hnext => exact hnext ▸ h
  | stop hnext => exact hnext ▸ h
  | exit _ hnext => exact hnext ▸ h
  | conn i act d d' hd hd' hnext =>
    intro c hc
    rw [hnext] at hc
    rcases List.mem_or_eq_of_mem_set hc with hold | rfl
    · exact h c hold
    · exact hmoves i act d c rfl hd hd' (h d (List.mem_of_getElem? hd))

/-- `run` leaves its loop only when `quit` is closed. -/
theorem on_step (a : ServerAct) (h : s.running = true ∨ s.quit = true) :
    Ensures (s.step a) fun s' => s'.running = true ∨ s'.quit = true := by
  intro s' hs'
  cases s.step_moves a s' hs' with
  | connect _ _ hnext => exact hnext ▸ h
  | graph jp hnext => exact hnext ▸ h
  | stop hnext => exact hnext ▸ Or.inr rfl
  | exit hquit hnext => exact hnext ▸ Or.inr hquit
  | conn _ _ _ _ _ _ hnext => exact hnext ▸ h

/-- What holds as long as no step leads out of the account. -/
structure Sound (s : Server) : Prop where
  /-- The connections. -/
  conns : ∀ c ∈ s.conns, c.Sound
  /-- The map. -/
  registered : s.Registered
  /-- `run` leaves its loop only when `quit` is closed. -/
  on : s.running = true ∨ s.quit = true

/-- A step that does not lead out of the account. -/
theorem Sound.step (h : s.Sound) (hok : s.Orderly a) : Ensures (s.step a) Sound := by
  have hconns : Ensures (s.step a) fun s' => ∀ c ∈ s'.conns, c.Sound := by
    refine forall_conns_step rfl ?_ h.conns
    rintro i act c c' rfl hi hmoves hsound
    exact hsound.step hmoves (hok c hi)
  exact fun s' hs' => ⟨hconns s' hs', h.registered.step a s' hs', on_step a h.on s' hs'⟩

/-- In every run without a step that leads out of the account, every quiet state accounts for all
connections whose remote ends have sent a first message or left. -/
theorem accounted_of_orderly {id : Address} {jp : JPGraph} {acts : List ServerAct} {s : Server}
    (hrun : run Server.step (newServer id jp) acts = .ok s)
    (hmeets : Meets Server.step Orderly (newServer id jp) acts) (hquiet : s.Quiet)
    (hintroduced : ∀ c ∈ s.conns, c.Introduced) : s.Accounted := by
  have hinit : (newServer id jp).Sound :=
    ⟨fun c hc => (nomatch hc), registered_newServer id jp, Or.inl rfl⟩
  have hsound := run_invariant (fun s a h hok => h.step hok) hinit hmeets s hrun
  have hidle := ((quiet_iff_idle s).mp hquiet).2
  intro i _ c hi
  have hc := List.mem_of_getElem? hi
  exact (hsound.conns c hc).accounted (hidle c hc) hsound.on hsound.registered hi
    (hintroduced c hc)

/-- A remote end introduces itself on a connection as node `0x0b`. -/
def introduction (i : ℕ) : List ServerAct :=
  [.conn i .greet, .conn i (.remote (newConn.sendHandshake (FixedBytes.ofNat 20 0x0B))),
    .conn i .handshake, .conn i .lookup]

/-- Node `0x0a` after some steps. -/
def afterSteps (acts : List ServerAct) : Server :=
  (run Server.step (newServer (FixedBytes.ofNat 20 0x0A) Node.idleGraph) acts).toOption.getD
    (newServer (FixedBytes.ofNat 20 0x0A) Node.idleGraph)

/-- A peer is registered, and a second connection of its node is refused. -/
def secondRefused : List ServerAct :=
  [.accept, .accept] ++ introduction 0 ++ [.conn 0 .offer] ++ introduction 1

/-- The remote end of a peer closes the connection. -/
def endOfPeer : List ServerAct :=
  [.accept] ++ introduction 0 ++ [.conn 0 .offer, .conn 0 (.leave .eof), .conn 0 .read,
    .conn 0 .readErr]

/-- Two connections of one node are between the two checks for a duplicate. -/
def lateDuplicate : List ServerAct :=
  [.accept, .accept] ++ introduction 0 ++ introduction 1 ++ [.conn 0 .offer, .conn 1 .offer]

/-- The server stops before a connection is handed over. -/
def stoppedBefore : List ServerAct :=
  [.accept] ++ introduction 0 ++ [.stop, .exit, .conn 0 .reject]

/-- The remote end is silent. -/
def silent : List ServerAct := [.accept, .conn 0 .greet]

/-- A peer reads, and the other connection is closed. -/
theorem accounted_secondRefused :
    (afterSteps secondRefused).conns.map (fun c => c.closed) = [false, true] ∧
      (afterSteps secondRefused).Accounted := by
  have hrun : run Server.step (newServer (FixedBytes.ofNat 20 0x0A) Node.idleGraph)
      secondRefused = .ok (afterSteps secondRefused) := eq_ok_getD (by decide +kernel) _
  exact ⟨by decide +kernel, accounted_of_orderly hrun (by decide +kernel) (by decide +kernel)
    (by decide +kernel)⟩

/-- Node `0x0a` comes to rest and does not account for all connections. -/
def RestsUnaccounted (acts : List ServerAct) : Prop :=
  run Server.step (newServer (FixedBytes.ofNat 20 0x0A) Node.idleGraph) acts =
      .ok (afterSteps acts) ∧
    (afterSteps acts).Quiet ∧ ¬ (afterSteps acts).Accounted

/-- Whether it does so can be computed. -/
theorem restsUnaccounted_iff {acts : List ServerAct} : RestsUnaccounted acts ↔
    (run Server.step (newServer (FixedBytes.ofNat 20 0x0A) Node.idleGraph)
        acts).toOption.isSome = true ∧
      (afterSteps acts).Quiet ∧ ¬ (afterSteps acts).Accounted := by
  refine and_congr_left' ⟨fun hrun => ?_, fun hsome => eq_ok_getD hsome _⟩
  rw [hrun]
  rfl

/-- A server at rest does not account for a peer whose remote end has left, for a duplicate that
`run` has found, for a connection of a server that has stopped and for a silent remote end. -/
theorem not_accounted_at_rest :
    RestsUnaccounted endOfPeer ∧ RestsUnaccounted lateDuplicate ∧
      RestsUnaccounted stoppedBefore ∧ RestsUnaccounted silent := by
  simp only [restsUnaccounted_iff]
  decide +kernel

end Server

end Hashgrid.P2p
