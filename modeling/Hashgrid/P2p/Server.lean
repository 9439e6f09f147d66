import Hashgrid.P2p.Handshake

/-!
# The server

`Server.run`, `HandleConn`, `runPeer`, `Peer.run` and `readLoop` of package `p2p`, for any
number of connections. Every connection has its own goroutines. One of them, or `run`,
takes a step at a time. A send to an unbuffered channel and its receipt are one step. The
remote ends and the other goroutines of the node do what they like.
-/

namespace Hashgrid.P2p

open Hashgrid.Bytes Hashgrid.Core Hashgrid.Machine Hashgrid.Rlp Hashgrid.Wire

/-- The text of an error. -/
def errorText : ConnErr → String
  | .notExist => "ReadMsg error: connection not exist"
  | .payloadSize => "WriteMsg error: payload size not match"
  | .eof => "EOF"
  | .unexpectedEOF => "unexpected EOF"
  | .indexOutOfRange => "runtime error: index out of range"

/-- How the remote end leaves a connection. -/
inductive Ending
  /-- It closes the connection in an orderly way. -/
  | eof
  /-- The connection breaks. -/
  | broken
  deriving DecidableEq

/-- Where `readLoop` stands. -/
inductive ReadPc
  /-- It reads a message. -/
  | reading
  /-- It handles a message. -/
  | handling (msg : Msg)
  /-- It has put an error into `readErr` and returned. -/
  | returned
  deriving DecidableEq

/-- Where `runPeer` stands. -/
inductive RunPc
  /-- `Peer.run` waits for an error. -/
  | waiting
  /-- `Peer.run` has left its loop. -/
  | leaving
  /-- It is about to send the peer to `delpeer`. -/
  | dropping
  /-- It has returned. -/
  | returned
  deriving DecidableEq

/-- `Peer`, with its goroutines. -/
structure Peer where
  /-- `ID`. -/
  id : Address
  /-- `readLoop`. -/
  reader : ReadPc
  /-- The error in the channel `readErr`. -/
  readErr : Option String
  /-- `runPeer`. -/
  runner : RunPc
  deriving DecidableEq

/-- `newPeer`, when its goroutines start. -/
def newPeer (id : Address) : Peer := ⟨id, .reading, none, .waiting⟩

/-- Who holds a connection. -/
inductive Stage
  /-- `HandleConn`, before it sends its handshake. -/
  | greet
  /-- `HandleConn`, before it reads the handshake of the remote end. -/
  | handshake
  /-- `HandleConn`, before `FindPeer`. -/
  | lookup (id : Address)
  /-- `HandleConn`, before it sends the connection to `addpeer`. -/
  | offer (id : Address)
  /-- Nobody. `HandleConn` has returned. -/
  | abandoned
  /-- A peer. -/
  | peer (p : Peer)
  deriving DecidableEq

/-- `conn`, with what happens on the network connection. -/
structure Conn where
  /-- What the remote end has sent. -/
  sent : List UInt8
  /-- How many bytes of it have been read. -/
  taken : ℕ
  /-- Whether the remote end has left. -/
  ending : Option Ending
  /-- What was written. -/
  written : List UInt8
  /-- Whether this node has closed the connection. -/
  closed : Bool
  /-- Who holds it. -/
  stage : Stage
  deriving DecidableEq

/-- A connection that was accepted or dialled. -/
def newConn : Conn := ⟨[], 0, none, [], false, .greet⟩

/-- `ReadMsg`: a message with the position after it, or the text of an error. It waits as long as
the remote end may send more. -/
def Conn.readMsg (c : Conn) : Except Stop (Except String (Msg × ℕ)) :=
  match Wire.readMsg (some (c.sent.drop c.taken)) with
  | .ok (msg, rest) => .ok (.ok (msg, c.sent.length - rest.length))
  | .error err =>
    match c.ending with
    | none => .error .blocked
    | some .eof => .ok (.error (errorText err))
    | some .broken => .ok (.error "connection reset by peer")

/-- What is on the wire after `WriteMsg`. -/
def Conn.writeMsg (c : Conn) (msg : Msg) : List UInt8 :=
  if c.closed then c.written
  else
    match Wire.writeMsg (some c.written) msg with
    | .error _ => c.written
    | .ok wire => wire

/-- What is on the wire after the handshake was sent. -/
def Conn.sendHandshake (c : Conn) (id : Address) : List UInt8 :=
  match encodeToBytes (.byteArray 20) id with
  | .error _ => c.written
  | .ok b => c.writeMsg (Node.arrivedMsg handshakeMsg 0 b)

/-- `Server`, with the map of `run`. -/
structure Server where
  /-- The address of this node. -/
  id : Address
  /-- The graph of this node. -/
  jp : JPGraph
  /-- All connections. -/
  conns : List Conn
  /-- The connections of the peers by ID. -/
  peers : AList fun _ : Address => ℕ
  /-- Whether `run` is in its loop. -/
  running : Bool
  /-- Whether `quit` is closed. -/
  quit : Bool

/-- A server that has just been started. -/
def newServer (id : Address) (jp : JPGraph) : Server := ⟨id, jp, [], ∅, true, false⟩

/-- What happens next on a connection. -/
inductive ConnAct
  /-- The remote end sends. -/
  | remote (bytes : List UInt8)
  /-- The remote end leaves. -/
  | leave (how : Ending)
  /-- A message is sent to the peer. -/
  | write (msg : Msg)
  /-- `HandleConn` sends its handshake. -/
  | greet
  /-- `HandleConn` reads the handshake of the remote end. -/
  | handshake
  /-- `HandleConn` asks `run` for the peer. -/
  | lookup
  /-- `HandleConn` does not ask because the server stops. -/
  | lookupQuit
  /-- `HandleConn` hands the connection to `run`. -/
  | offer
  /-- `HandleConn` keeps the connection because the server stops. -/
  | reject
  /-- `readLoop` reads a message. -/
  | read
  /-- `readLoop` handles the message. The number picks the match of a request. -/
  | handle (pick : ℕ)
  /-- `Peer.run` receives an error. -/
  | readErr
  /-- `Peer.run` closes the connection. -/
  | close
  /-- `runPeer` hands the peer to `run`. -/
  | drop

namespace Conn

/-- `HandleConn` closes the connection and returns. -/
def refuse (c : Conn) : Conn := { c with closed := true, stage := .abandoned }

/-- The next step on a connection of a server. -/
def step (s : Server) (c : Conn) : ConnAct → Except Stop Conn
  | .remote bytes =>
    if c.ending = none then .ok { c with sent := c.sent ++ bytes } else .error .blocked
  | .leave how => if c.ending = none then .ok { c with ending := some how } else .error .blocked
  | .write msg =>
    match c.stage with
    | .peer _ => .ok { c with written := c.writeMsg msg }
    | _ => .error .blocked
  | .greet =>
    match c.stage with
    | .greet => .ok { c with written := c.sendHandshake s.id, stage := .handshake }
    | _ => .error .blocked
  | .handshake =>
    match c.stage with
    | .handshake => do
      match ← c.readMsg with
      | .error _ => return c.refuse
      | .ok (msg, taken) =>
        match receiveID s.id msg with
        | .error _ => return { c with taken := taken }.refuse
        | .ok recvID =>
          if recvID.compare s.id = 0 then return { c with taken := taken }.refuse
          else return { c with taken := taken, stage := .lookup recvID }
    | _ => .error .blocked
  | .lookup =>
    match c.stage with
    | .lookup id =>
      if s.running then
        if (s.peers.lookup id).isSome then .ok c.refuse else .ok { c with stage := .offer id }
      else .error .blocked
    | _ => .error .blocked
  | .lookupQuit =>
    match c.stage with
    | .lookup id => if s.quit then .ok { c with stage := .offer id } else .error .blocked
    | _ => .error .blocked
  | .offer =>
    match c.stage with
    | .offer id =>
      if s.running then
        if (s.peers.lookup id).isSome then .ok { c with stage := .abandoned }
        else .ok { c with stage := .peer (newPeer id) }
      else .error .blocked
    | _ => .error .blocked
  | .reject =>
    match c.stage with
    | .offer _ => if s.quit then .ok { c with stage := .abandoned } else .error .blocked
    | _ => .error .blocked
  | .read =>
    match c.stage with
    | .peer p =>
      match p.reader with
      | .reading => do
        match ← c.readMsg with
        | .error err => return { c with
            stage := .peer { p with reader := .returned, readErr := some err } }
        | .ok (msg, taken) => return { c with
            taken := taken, stage := .peer { p with reader := .handling msg } }
      | _ => .error .blocked
    | _ => .error .blocked
  | .handle pick =>
    match c.stage with
    | .peer p =>
      match p.reader with
      | .handling msg => do
        let hd ← Node.handle s.jp msg pick
        match hd.err with
        | none => return { c with stage := .peer { p with reader := .reading } }
        | some err => return { c with
            stage := .peer { p with reader := .returned, readErr := some err } }
      | _ => .error .blocked
    | _ => .error .blocked
  | .readErr =>
    match c.stage with
    | .peer p =>
      match p.runner, p.readErr with
      | .waiting, some err => .ok { c with stage := .peer { p with
          readErr := none, runner := if err ≠ "EOF" then .leaving else .waiting } }
      | _, _ => .error .blocked
    | _ => .error .blocked
  | .close =>
    match c.stage with
    | .peer p =>
      if p.runner = .leaving then
        .ok { c with closed := true, stage := .peer { p with runner := .dropping } }
      else .error .blocked
    | _ => .error .blocked
  | .drop =>
    match c.stage with
    | .peer p =>
      if p.runner = .dropping ∧ s.running then
        .ok { c with stage := .peer { p with runner := .returned } }
      else .error .blocked
    | _ => .error .blocked

end Conn

/-- What happens next at a server. -/
inductive ServerAct
  /-- `listenLoop` accepts a connection. -/
  | accept
  /-- `run` dials a node. -/
  | dial
  /-- The other goroutines of the node change the graph. -/
  | graph (jp : JPGraph)
  /-- `Stop` is called. -/
  | stop
  /-- `run` leaves its loop. -/
  | exit
  /-- Something happens on a connection. -/
  | conn (i : ℕ) (a : ConnAct)

namespace Server

/-- The map of `run` after a step on a connection. -/
def peersAfter (s : Server) (i : ℕ) (c : Conn) (a : ConnAct) : AList fun _ : Address => ℕ :=
  match a, c.stage with
  | .offer, .offer id => if (s.peers.lookup id).isSome then s.peers else s.peers.insert id i
  | .drop, .peer p => s.peers.erase p.id
  | _, _ => s.peers

/-- The graph after a step on a connection. -/
def graphAfter (s : Server) (c : Conn) (a : ConnAct) : JPGraph :=
  match a, c.stage with
  | .handle pick, .peer ⟨_, .handling msg, _, _⟩ =>
    ((Node.handle s.jp msg pick).toOption.map Node.Handled.graph).getD s.jp
  | _, _ => s.jp

/-- One step. -/
def step (s : Server) : ServerAct → Except Stop Server
  | .accept => if s.quit then .error .blocked else .ok { s with conns := s.conns ++ [newConn] }
  | .dial => if s.running then .ok { s with conns := s.conns ++ [newConn] } else .error .blocked
  | .graph jp => .ok { s with jp := jp }
  | .stop => if s.quit then .error .blocked else .ok { s with quit := true }
  | .exit => if s.running ∧ s.quit then .ok { s with running := false } else .error .blocked
  | .conn i a =>
    match s.conns[i]? with
    | none => .error .blocked
    | some c => (c.step s a).map fun c' =>
      { s with conns := s.conns.set i c', peers := s.peersAfter i c a, jp := s.graphAfter c a }

end Server

/-- What a step on a connection does. -/
inductive Conn.Moves (s : Server) (c c' : Conn) (a : ConnAct) : Prop
  /-- Nobody who holds the connection takes a step. -/
  | outside (act : a ≠ .offer ∧ a ≠ .drop) (stage : c'.stage = c.stage) (taken : c'.taken = c.taken)
      (closed : c'.closed = c.closed)
  /-- A handshake is sent. -/
  | greet (act : a = .greet) (stage : c.stage = .greet) (next : c'.stage = .handshake)
      (taken : c'.taken = c.taken) (closed : c'.closed = c.closed)
  /-- The connection is refused. -/
  | refuse (act : a ≠ .offer ∧ a ≠ .drop)
      (stage : c.stage = .handshake ∨ ∃ id, c.stage = .lookup id)
      (next : c'.stage = .abandoned) (closed : c'.closed = true)
  /-- A handshake is read. -/
  | introduce (id : Address) (act : a = .handshake) (stage : c.stage = .handshake)
      (next : c'.stage = .lookup id) (other : id ≠ s.id) (closed : c'.closed = c.closed)
  /-- No peer is found. -/
  | lookup (id : Address) (act : a = .lookup ∨ a = .lookupQuit) (stage : c.stage = .lookup id)
      (next : c'.stage = .offer id) (closed : c'.closed = c.closed)
  /-- `run` has a peer with this ID already. -/
  | known (id : Address) (act : a = .offer) (stage : c.stage = .offer id)
      (found : (s.peers.lookup id).isSome) (next : c'.stage = .abandoned)
      (closed : c'.closed = c.closed)
  /-- `run` makes a peer. -/
  | register (id : Address) (act : a = .offer) (stage : c.stage = .offer id)
      (new : s.peers.lookup id = none) (next : c'.stage = .peer (newPeer id))
      (closed : c'.closed = c.closed)
  /-- The server stops. -/
  | reject (id : Address) (act : a = .reject) (stage : c.stage = .offer id) (quit : s.quit = true)
      (next : c'.stage = .abandoned) (closed : c'.closed = c.closed)
  /-- `readLoop` goes on. -/
  | read (p : Peer) (reader : ReadPc) (act : a ≠ .offer ∧ a ≠ .drop) (stage : c.stage = .peer p)
      (next : c'.stage = .peer { p with reader := reader }) (on : reader ≠ .returned)
      (closed : c'.closed = c.closed)
  /-- `readLoop` returns. -/
  | readEnd (p : Peer) (err : String) (act : a ≠ .offer ∧ a ≠ .drop) (stage : c.stage = .peer p)
      (before : p.reader ≠ .returned)
      (next : c'.stage = .peer { p with reader := .returned, readErr := some err })
      (eof : err = "EOF" → a = .read ∧ c.readMsg = .ok (.error "EOF"))
      (closed : c'.closed = c.closed)
  /-- `Peer.run` receives an error. -/
  | readErr (p : Peer) (err : String) (act : a = .readErr) (stage : c.stage = .peer p)
      (runner : p.runner = .waiting) (error : p.readErr = some err)
      (next : c'.stage = .peer { p with
        readErr := none, runner := if err ≠ "EOF" then .leaving else .waiting })
      (closed : c'.closed = c.closed)
  /-- `Peer.run` closes the connection. -/
  | close (p : Peer) (act : a = .close) (stage : c.stage = .peer p) (runner : p.runner = .leaving)
      (next : c'.stage = .peer { p with runner := .dropping }) (closed : c'.closed = true)
  /-- `run` removes the peer. -/
  | drop (p : Peer) (act : a = .drop) (stage : c.stage = .peer p) (runner : p.runner = .dropping)
      (next : c'.stage = .peer { p with runner := .returned }) (closed : c'.closed = c.closed)

/-- The errors of `RetrieveEvent`. -/
theorem text_of_retrieveEvent {jp : JPGraph} {hash : Hash} {pick : ℕ} {err : String}
    (h : jp.retrieveEvent hash pick = .error err) :
    err = "RetrieveEvent: coinbase not in graph" ∨ err = "RetrieveEvent: not found" := by
  unfold JPGraph.retrieveEvent at h
  split at h
  · exact Or.inl (Except.error.inj h).symm
  · dsimp only at h
    split at h
    · exact Or.inr (Except.error.inj h).symm
    · split at h
      · exact Or.inr (Except.error.inj h).symm
      · cases h

/-- No message makes the handler fail with the text of `io.EOF`. -/
theorem err_handle (jp : JPGraph) (msg : Msg) (pick : ℕ) :
    Ensures (Node.handle jp msg pick) fun hd => hd.err ≠ some "EOF" := by
  by_cases hevent : msg.code = Node.eventMsg
  · rw [Node.handle_eventMsg jp hevent]
    split
    · exact .ok (by simp)
    · exact .map (.self _) fun _ _ => by simp
  · unfold Node.handle
    split_ifs
    · exact .ok (by simp)
    · exact .ok (by simp)
    · exact .ok (by simp)
    · split
      · next err hretrieve =>
        refine .ok ?_
        rcases text_of_retrieveEvent hretrieve with rfl | rfl <;> simp
      · exact .ok (by simp)
    · exact .ok (by simp)
    · exact .ok (by simp)

/-- Every step on a connection is one of these. -/
theorem Conn.step_moves (s : Server) (c : Conn) (a : ConnAct) :
    Ensures (c.step s a) fun c' => c.Moves s c' a := by
  unfold Conn.step
  cases a with
  | remote bytes =>
    dsimp only
    split_ifs
    · exact .ok (.outside ⟨nofun, nofun⟩ rfl rfl rfl)
    · exact .error
  | leave how =>
    dsimp only
    split_ifs
    · exact .ok (.outside ⟨nofun, nofun⟩ rfl rfl rfl)
    · exact .error
  | write msg =>
    dsimp only
    split
    · exact .ok (.outside ⟨nofun, nofun⟩ rfl rfl rfl)
    · exact .error
  | greet =>
    dsimp only
    split
    · next hstage => exact .ok (.greet rfl hstage rfl rfl rfl)
    · exact .error
  | handshake =>
    dsimp only
    split
    · next hstage =>
      have hrefuse : c.stage = .handshake ∨ ∃ id, c.stage = .lookup id := Or.inl hstage
      refine .bind (.self _) fun r _ => ?_
      split
      · exact .ok (.refuse ⟨nofun, nofun⟩ hrefuse rfl rfl)
      · split
        · exact .ok (.refuse ⟨nofun, nofun⟩ hrefuse rfl rfl)
        · next recvID _ =>
          split_ifs with hown
          · exact .ok (.refuse ⟨nofun, nofun⟩ hrefuse rfl rfl)
          · exact .ok (.introduce recvID rfl hstage rfl
              (fun heq => hown (FixedBytes.compare_eq_zero.mpr heq)) rfl)
    · exact .error
  | lookup =>
    dsimp only
    split
    · next id hstage =>
      split_ifs
      · exact .ok (.refuse ⟨nofun, nofun⟩ (Or.inr ⟨id, hstage⟩) rfl rfl)
      · exact .ok (.lookup id (Or.inl rfl) hstage rfl rfl)
      · exact .error
    · exact .error
  | lookupQuit =>
    dsimp only
    split
    · next id hstage =>
      split_ifs
      · exact .ok (.lookup id (Or.inr rfl) hstage rfl rfl)
      · exact .error
    · exact .error
  | offer =>
    dsimp only
    split
    · next id hstage =>
      split_ifs with _ hfound
      · exact .ok (.known id rfl hstage hfound rfl rfl)
      · exact .ok (.register id rfl hstage (Option.not_isSome_iff_eq_none.mp hfound) rfl rfl)
      · exact .error
    · exact .error
  | reject =>
    dsimp only
    split
    · next id hstage =>
      split_ifs with hquit
      · exact .ok (.reject id rfl hstage hquit rfl rfl)
      · exact .error
    · exact .error
  | read =>
    dsimp only
    split
    · next p hstage =>
      split
      · next hreader =>
        refine .bind (.self _) fun r hr => ?_
        split
        · next err =>
          refine .ok (.readEnd p err ⟨nofun, nofun⟩ hstage (by rw [hreader]; nofun) rfl ?_ rfl)
          rintro rfl
          exact ⟨rfl, hr⟩
        · next msg taken =>
          exact .ok (.read p (.handling msg) ⟨nofun, nofun⟩ hstage rfl nofun rfl)
      · exact .error
    · exact .error
  | handle pick =>
    dsimp only
    split
    · next p hstage =>
      split
      · next msg hreader =>
        refine .bind (err_handle s.jp msg pick) fun hd hhd => ?_
        split
        · exact .ok (.read p .reading ⟨nofun, nofun⟩ hstage rfl nofun rfl)
        · next err herr =>
          refine .ok (.readEnd p err ⟨nofun, nofun⟩ hstage (by rw [hreader]; nofun) rfl ?_ rfl)
          rintro rfl
          exact absurd herr hhd
      · exact .error
    · exact .error
  | readErr =>
    dsimp only
    split
    · next p hstage =>
      split
      · next err hrunner herr => exact .ok (.readErr p err rfl hstage hrunner herr rfl rfl)
      · exact .error
    · exact .error
  | close =>
    dsimp only
    split
    · next p hstage =>
      split_ifs with hrunner
      · exact .ok (.close p rfl hstage hrunner rfl rfl)
      · exact .error
    · exact .error
  | drop =>
    dsimp only
    split
    · next p hstage =>
      split_ifs with hrunner
      · exact .ok (.drop p rfl hstage hrunner.1 rfl rfl)
      · exact .error
    · exact .error

/-- The steps of `HandleConn` on a connection hand it over just when the function does, on what has
arrived, and under the same ID. -/
theorem Conn.offer_iff_handleConn {s : Server} {c c₁ c₂ : Conn} (hstage : c.stage = .handshake)
    (htaken : c.taken = 0) (h₁ : c.step s .handshake = .ok c₁) (h₂ : c₁.step s .lookup = .ok c₂)
    (id : Address) :
    c₂.stage = .offer id ↔ handleConn s.id s.peers.keys.toFinset c.sent = .offered id := by
  have habandoned (h : c₁.stage = .abandoned) : False := by
    simp only [Conn.step, h] at h₂
    cases h₂
  simp only [Conn.step, hstage, Conn.readMsg, htaken, List.drop_zero] at h₁
  unfold handleConn protoHandshake
  cases hread : Wire.readMsg (some c.sent) with
  | error err =>
    simp only [hread] at h₁
    cases hending : c.ending with
    | none =>
      rw [hending] at h₁
      cases h₁
    | some how =>
      rw [hending] at h₁
      cases how <;> cases h₁ <;> exact (habandoned rfl).elim
  | ok r =>
    simp only [hread, bind, Except.bind] at h₁
    dsimp only
    cases hid : receiveID s.id r.1 with
    | error err =>
      rw [hid] at h₁
      cases h₁
      exact (habandoned rfl).elim
    | ok recvID =>
      rw [hid] at h₁
      dsimp only at h₁ ⊢
      split_ifs at h₁ with hown
      · cases h₁
        exact (habandoned rfl).elim
      · cases h₁
        rw [if_neg hown]
        have hmem : recvID ∈ s.peers.keys.toFinset ↔ (s.peers.lookup recvID).isSome := by
          rw [List.mem_toFinset, AList.lookup_isSome, AList.mem_keys]
        simp only [Conn.step] at h₂
        split_ifs at h₂ with hrunning hfound
        · cases h₂
          rw [if_pos (hmem.mpr hfound)]
          exact iff_of_false nofun nofun
        · cases h₂
          rw [if_neg fun h => hfound (hmem.mp h)]
          simp

/-- What a step of a server does. -/
inductive Server.Moves (s s' : Server) : ServerAct → Prop
  /-- A connection is added. -/
  | connect (a : ServerAct) (act : a = .accept ∨ a = .dial)
      (next : s' = { s with conns := s.conns ++ [newConn] }) : Moves s s' a
  /-- The graph changes. -/
  | graph (jp : JPGraph) (next : s' = { s with jp := jp }) : Moves s s' (.graph jp)
  /-- `quit` is closed. -/
  | stop (next : s' = { s with quit := true }) : Moves s s' .stop
  /-- `run` leaves its loop. -/
  | exit (quit : s.quit = true) (next : s' = { s with running := false }) : Moves s s' .exit
  /-- A step on a connection. -/
  | conn (i : ℕ) (a : ConnAct) (c c' : Conn) (found : s.conns[i]? = some c)
      (moves : c.Moves s c' a) (next : s' = { s with conns := s.conns.set i c'
                                                     peers := s.peersAfter i c a
                                                     jp := s.graphAfter c a }) :
      Moves s s' (.conn i a)

/-- Every step of a server is one of these. -/
theorem Server.step_moves (s : Server) (a : ServerAct) :
    Ensures (s.step a) fun s' => s.Moves s' a := by
  unfold Server.step
  cases a with
  | accept =>
    dsimp only
    split_ifs
    · exact .error
    · exact .ok (.connect _ (Or.inl rfl) rfl)
  | dial =>
    dsimp only
    split_ifs
    · exact .ok (.connect _ (Or.inr rfl) rfl)
    · exact .error
  | graph jp => exact .ok (.graph jp rfl)
  | stop =>
    dsimp only
    split_ifs
    · exact .error
    · exact .ok (.stop rfl)
  | exit =>
    dsimp only
    split_ifs with hexit
    · exact .ok (.exit hexit.2 rfl)
    · exact .error
  | conn i a =>
    dsimp only
    split
    · exact .error
    · next c hc => exact .map (c.step_moves s a) fun c' hc' => .conn i a c c' hc hc' rfl

end Hashgrid.P2p
