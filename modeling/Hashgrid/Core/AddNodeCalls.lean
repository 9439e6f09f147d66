import Hashgrid.Core.Numbers
import Hashgrid.Core.Retrieve
import Hashgrid.Lib.Pool

/-!
# Calls of `AddNode` step by step

`AddNode` looks for the column in one critical section, stores a new column in another
one and writes the majority after both. Calls that interleave can disturb each other in
two ways: both store a column for one address, or they write the majority in the wrong
order. If neither happens, the columns are numbered and the majority is right.
-/

namespace Hashgrid.Core

open Hashgrid.Bytes Hashgrid.Machine Hashgrid.Pools

/-- Where a call of `AddNode` stands. -/
inductive NodePc
  /-- Before the lookup. -/
  | check
  /-- Before the new column is stored. -/
  | insert
  /-- Before the majority is written. -/
  | majority (c mlen : ℕ)
  /-- It has returned a column. -/
  | returned (c : ℕ)
  deriving DecidableEq

/-- The column that a call has found or stored. -/
def NodePc.column : NodePc → Option ℕ
  | .check => none
  | .insert => none
  | .majority c _ => some c
  | .returned c => some c

/-- The number of the column that a call has stored, while it has not written the majority. -/
def NodePc.unwritten : NodePc → Option ℕ
  | .check => none
  | .insert => none
  | .majority _ mlen => some mlen
  | .returned _ => none

/-- A call of `AddNode`. -/
structure NodeCall where
  /-- The address. -/
  address : Address
  /-- Where the call stands. -/
  pc : NodePc
  deriving DecidableEq

/-- The next step of a call. -/
def NodeCall.step (call : NodeCall) (jp : JPGraph) : JPGraph × NodePc :=
  match call.pc with
  | .check =>
    match jp.graph.lookup call.address with
    | some c => (jp, .returned c)
    | none => (jp, .insert)
  | .insert =>
    match jp.addNodeInsert call.address with
    | (jp, c, mlen) => (jp, .majority c mlen)
  | .majority c mlen => (jp.addNodeMajority c mlen, .returned c)
  | .returned c => (jp, .returned c)

/-- Calls of `AddNode` over a graph. A call that has returned stays in the pool. -/
def nodeCalls : System Stop JPGraph NodeCall Address Empty where
  start jp a := .ok (jp, ⟨a, .check⟩)
  go jp call := .ok ((call.step jp).1, some { call with pc := (call.step jp).2 })
  other _ v := nomatch v
  idle := .blocked

/-- A call that nobody disturbs does what `addNode` says. -/
theorem run_nodeCalls_undisturbed (jp : JPGraph) (a : Address) :
    ∃ n, run nodeCalls.step ⟨jp, []⟩ (.start a :: List.replicate n (.go 0)) =
      .ok ⟨(jp.addNode a).1, [⟨a, .returned (jp.addNode a).2⟩]⟩ := by
  cases h : jp.graph.lookup a with
  | some c =>
    refine ⟨1, ?_⟩
    rw [JPGraph.addNode_known h]
    simp [run, nodeCalls, System.step, Except.map, NodeCall.step, h]
  | none =>
    refine ⟨3, ?_⟩
    simp [run, nodeCalls, System.step, Except.map, NodeCall.step, h, List.replicate,
      JPGraph.addNode]

/-- The numbers of the columns in the graph. -/
def JPGraph.numbers (jp : JPGraph) : List ℕ :=
  jp.graph.entries.map fun entry => (jp.col entry.2).seqNum

/-- The columns are numbered from zero on without repetition, and the majority is that of their
number. -/
structure JPGraph.Counted (jp : JPGraph) : Prop where
  /-- The numbers of the columns. -/
  numbers : jp.numbers.Perm (List.range jp.size)
  /-- The majority. -/
  majority : jp.superMajority = 2 * jp.size / 3

variable {jp : JPGraph} {a : Address} {s : Pool JPGraph NodeCall}

namespace JPGraph

theorem size_addNodeInsert (hnew : jp.graph.lookup a = none) :
    (jp.addNodeInsert a).1.size = jp.size + 1 := by
  unfold size addNodeInsert
  rw [AList.entries_insert_of_notMem (AList.lookup_eq_none.mp hnew), List.length_cons]

/-- A column that is stored for a new address has the next number. -/
theorem numbers_addNodeInsert (hnew : jp.graph.lookup a = none)
    (hlt : ∀ b c, jp.graph.lookup b = some c → c < jp.cols.next) :
    (jp.addNodeInsert a).1.numbers = jp.size :: jp.numbers := by
  unfold numbers addNodeInsert
  rw [AList.entries_insert_of_notMem (AList.lookup_eq_none.mp hnew), List.map_cons]
  refine congrArg₂ List.cons ?_ (List.map_congr_left fun entry hentry => ?_)
  · exact congrArg Column.seqNum (Heap.get_alloc_next _ _)
  · have hlook : jp.graph.lookup entry.1 = some entry.2 := AList.mem_lookup_iff.mpr hentry
    exact congrArg Column.seqNum (Heap.get_alloc_of_lt (hlt _ _ hlook) _)

theorem numbers_addNodeMajority (jp : JPGraph) (c mlen : ℕ) :
    (jp.addNodeMajority c mlen).numbers = jp.numbers := by
  refine List.map_congr_left fun entry _ => ?_
  exact Heap.get_update_of_eq jp.cols c (g := Column.seqNum) (fun _ => by rfl) entry.2

end JPGraph

/-- Some call has stored the newest column and has not written the majority. -/
def NewestUnwritten (s : Pool JPGraph NodeCall) : Prop :=
  ∃ call ∈ s.calls, call.pc.unwritten.map (· + 1) = some s.memory.size

/-- A column is stored only for an address without one, and the majority is written only until
the call that stored the newest column has written it. -/
def InTurn (s : Pool JPGraph NodeCall) (act : Act Address Empty) : Prop :=
  Goes s act fun call =>
    (call.pc = .insert → s.memory.graph.lookup call.address = none) ∧
      (call.pc.unwritten.isSome → NewestUnwritten s)

instance (s : Pool JPGraph NodeCall) : Decidable (NewestUnwritten s) :=
  inferInstanceAs (Decidable (∃ call ∈ s.calls, _))

instance (s : Pool JPGraph NodeCall) (act : Act Address Empty) : Decidable (InTurn s act) :=
  inferInstanceAs (Decidable (Goes s act fun _ => (_ → _) ∧ (_ → _)))

/-- The columns are there and are numbered. -/
structure JPGraph.ColumnsCounted (jp : JPGraph) : Prop where
  /-- The columns of the graph are there. -/
  col_lt : ∀ a c, jp.graph.lookup a = some c → c < jp.cols.next
  /-- They are numbered. -/
  numbers : jp.numbers.Perm (List.range jp.size)

/-- What a call has found or stored is the column in the graph. -/
def NodeCall.HasColumn (jp : JPGraph) (call : NodeCall) : Prop :=
  ∀ c, call.pc.column = some c → jp.graph.lookup call.address = some c

/-- A column for a new address is counted, and the others keep theirs. -/
theorem JPGraph.ColumnsCounted.addNodeInsert (h : jp.ColumnsCounted)
    (hnew : jp.graph.lookup a = none) : (jp.addNodeInsert a).1.ColumnsCounted ∧
      ∀ b c, jp.graph.lookup b = some c → (jp.addNodeInsert a).1.graph.lookup b = some c := by
  refine ⟨⟨fun b c hc => ?_, ?_⟩, fun b c hc => ?_⟩
  · have hcols : (jp.addNodeInsert a).1.cols.next = jp.cols.next + 1 := by
      simp [JPGraph.addNodeInsert]
    rw [hcols]
    by_cases hb : b = a
    · subst hb
      have hlook : (jp.graph.insert b jp.cols.next).lookup b = some c := hc
      rw [AList.lookup_insert] at hlook
      cases hlook
      exact Nat.lt_succ_self _
    · have hlook : (jp.graph.insert a jp.cols.next).lookup b = some c := hc
      rw [AList.lookup_insert_ne hb] at hlook
      exact Nat.lt_succ_of_lt (h.col_lt b c hlook)
  · rw [numbers_addNodeInsert hnew h.col_lt, size_addNodeInsert hnew, List.range_succ]
    exact (h.numbers.cons _).trans (List.perm_append_singleton _ _).symm
  · have hb : b ≠ a := by
      rintro rfl
      rw [hnew] at hc
      cases hc
    exact (AList.lookup_insert_ne hb).trans hc

/-- As long as no column is stored twice, the columns are counted and every call has the column
of the graph. -/
theorem keeps_nodeCalls : Keeps nodeCalls
    (fun jp call => call.pc = .insert → jp.graph.lookup call.address = none)
    JPGraph.ColumnsCounted (fun jp call => call.HasColumn jp) fun _ _ => True where
  symm _ _ _ := trivial
  start jp a h := .ok ⟨h, fun c hc => (nomatch hc), fun d hd => ⟨hd, trivial⟩⟩
  other _ v := nomatch v
  go jp call h hcall hok := by
    refine .ok ?_
    obtain ⟨a, pc⟩ := call
    cases pc with
    | check =>
      cases hlook : jp.graph.lookup a with
      | none =>
        simp only [NodeCall.step, hlook]
        exact ⟨h, fun c' hc' => by cases hc'; exact fun c hc => (nomatch hc),
          fun d hd _ => ⟨hd, fun _ _ => trivial⟩⟩
      | some c =>
        simp only [NodeCall.step, hlook]
        refine ⟨h, fun c' hc' => ?_, fun d hd _ => ⟨hd, fun _ _ => trivial⟩⟩
        cases hc'
        intro c' hc'
        cases hc'
        exact hlook
    | insert =>
      obtain ⟨hcounted, hkept⟩ := h.addNodeInsert (hok rfl)
      refine ⟨hcounted, fun c' hc' => ?_, fun d hd _ => ⟨fun c hc => ?_, fun _ _ => trivial⟩⟩
      · cases hc'
        intro c hc
        cases hc
        exact AList.lookup_insert _
      · exact hkept _ c (hd c hc)
    | majority c mlen =>
      refine ⟨⟨fun b d hd => ?_, ?_⟩, fun c' hc' => ?_, fun d hd _ => ⟨hd, fun _ _ => trivial⟩⟩
      · exact Nat.lt_of_lt_of_eq (h.col_lt b d hd) (Heap.next_update ..).symm
      · exact (jp.numbers_addNodeMajority c mlen).symm ▸ h.numbers
      · cases hc'
        intro d hd
        exact hcall d hd
    | returned c =>
      exact ⟨h, fun c' hc' => by cases hc'; exact hcall, fun d hd _ => ⟨hd, fun _ _ => trivial⟩⟩

/-- The majority is right, or is still to be written by the call with the newest column. -/
def MajorityDue (s : Pool JPGraph NodeCall) : Prop :=
  s.memory.superMajority = 2 * s.memory.size / 3 ∨ NewestUnwritten s

/-- A call that reads does not touch what is due. -/
theorem MajorityDue.move (h : MajorityDue s) {i : ℕ} {call : NodeCall}
    (hi : s.calls[i]? = some call) (hread : call.pc.unwritten = none) (call' : NodeCall) :
    MajorityDue { s with calls := s.calls.set i call' } := by
  refine h.imp id ?_
  rintro ⟨other, hother, hnewest⟩
  refine ⟨other, mem_set_of_ne hi hother ?_ _, hnewest⟩
  rintro rfl
  simp [hread] at hnewest

/-- While the calls keep to their turn, the majority is right or due. -/
theorem MajorityDue.step (h : MajorityDue s) (act : Act Address Empty) (hturn : InTurn s act) :
    Ensures (nodeCalls.step s act) MajorityDue := by
  cases act with
  | start a =>
    refine .ok (h.imp id ?_)
    rintro ⟨call, hcall, hnewest⟩
    exact ⟨call, List.mem_append_left _ hcall, hnewest⟩
  | other v => cases v
  | go i =>
    cases hi : s.calls[i]? with
    | none =>
      simp only [System.step, hi]
      exact .error
    | some call =>
      obtain ⟨hnew, hnewest⟩ := hturn i call rfl hi
      simp only [System.step, hi]
      refine .ok ?_
      obtain ⟨a, pc⟩ := call
      have hset (call' : NodeCall) : call' ∈ s.calls.set i call' :=
        List.mem_set (List.getElem?_eq_some_iff.mp hi).1 call'
      cases pc with
      | check =>
        cases hlook : s.memory.graph.lookup a with
        | none =>
          simp only [NodeCall.step, hlook]
          exact h.move hi rfl _
        | some c =>
          simp only [NodeCall.step, hlook]
          exact h.move hi rfl _
      | insert =>
        refine Or.inr ⟨_, hset _, ?_⟩
        exact congrArg some (JPGraph.size_addNodeInsert (hnew rfl)).symm
      | majority c mlen =>
        obtain ⟨other, hother, hsize⟩ := hnewest rfl
        by_cases hself : other = ⟨a, .majority c mlen⟩
        · subst hself
          have hsize : mlen + 1 = s.memory.size := Option.some.inj hsize
          left
          change (mlen + 1) * 2 / 3 = 2 * s.memory.size / 3
          omega
        · exact Or.inr ⟨other, mem_set_of_ne hi hother hself _, hsize⟩
      | returned c => exact h.move hi rfl _

/-- Let calls of `AddNode` interleave on a graph with counted columns. If every call stores a
column only for an address without one, and writes the majority before the call with the newest
column has done so or as that call, then after all calls have returned the columns are counted
and every call has returned the column in the graph. -/
theorem counted_of_inTurn {jp : JPGraph}
    (hlt : ∀ a c, jp.graph.lookup a = some c → c < jp.cols.next) (hjp : jp.Counted)
    {acts : List (Act Address Empty)} {s : Pool JPGraph NodeCall}
    (hrun : run nodeCalls.step ⟨jp, []⟩ acts = .ok s)
    (hmeets : Meets nodeCalls.step InTurn ⟨jp, []⟩ acts)
    (hreturned : ∀ call ∈ s.calls, ∃ c, call.pc = .returned c) :
    s.memory.Counted ∧
      ∀ call ∈ s.calls, ∀ c, call.pc = .returned c →
        s.memory.graph.lookup call.address = some c := by
  have hinit : Holds JPGraph.ColumnsCounted (fun jp call => NodeCall.HasColumn jp call)
      (fun _ _ => True) (⟨jp, []⟩ : Pool JPGraph NodeCall) :=
    ⟨⟨hlt, hjp.numbers⟩, fun _ h => (nomatch h), .nil⟩
  have hnew (s : Pool JPGraph NodeCall) (act : Act Address Empty) (hturn : InTurn s act) :
      Goes s act fun call => call.pc = .insert → s.memory.graph.lookup call.address = none :=
    fun i call hact hi => (hturn i call hact hi).1
  have hholds := keeps_nodeCalls.run hnew hinit hmeets s hrun
  have hdue : MajorityDue s := run_invariant (fun s act h hturn => MajorityDue.step h act hturn)
    (Or.inl hjp.majority) hmeets s hrun
  refine ⟨⟨hholds.inv.numbers, hdue.resolve_right ?_⟩, fun call hcall c hc => ?_⟩
  · rintro ⟨call, hcall, hnewest⟩
    obtain ⟨c, hc⟩ := hreturned call hcall
    simp [hc, NodePc.unwritten] at hnewest
  · exact hholds.assertion call hcall c (by rw [hc]; rfl)

/-- The calls of `AddNode` at a new node `0x0a` after the given steps. -/
def callsAfter (acts : List (Act Address Empty)) : Pool JPGraph NodeCall :=
  (run nodeCalls.step ⟨newJPGraph (FixedBytes.ofNat 20 0x0A) 3, []⟩ acts).toOption.getD
    ⟨newJPGraph (FixedBytes.ofNat 20 0x0A) 3, []⟩

/-- Two calls for two addresses, of which the one that stores its column first also writes the
majority first. -/
def inTurnActs : List (Act Address Empty) :=
  [.start (FixedBytes.ofNat 20 1), .start (FixedBytes.ofNat 20 2), .go 0, .go 1, .go 0, .go 1,
    .go 0, .go 1]

/-- Two calls for two addresses that take turns. -/
theorem counted_inTurnActs : (callsAfter inTurnActs).memory.Counted ∧
    ∀ call ∈ (callsAfter inTurnActs).calls, ∀ c, call.pc = .returned c →
      (callsAfter inTurnActs).memory.graph.lookup call.address = some c :=
  counted_of_inTurn (Site.linked_newSite (FixedBytes.ofNat 20 0x0A) 3).wf.col_lt
    ⟨by decide +kernel, by decide +kernel⟩ (eq_ok_getD (by decide +kernel) _)
    (by decide +kernel) fun call hcall => by
      have hall : ∀ call ∈ (callsAfter inTurnActs).calls, call.pc = .returned 1 ∨
          call.pc = .returned 2 := by decide +kernel
      rcases hall call hcall with hc | hc
      · exact ⟨1, hc⟩
      · exact ⟨2, hc⟩

/-- Two calls for one address that both find no column. -/
def sameAddressActs : List (Act Address Empty) :=
  [.start (FixedBytes.ofNat 20 1), .start (FixedBytes.ofNat 20 1), .go 0, .go 1, .go 0, .go 1,
    .go 0, .go 1]

/-- Two calls for two addresses, of which the one that stores its column first writes the majority
last. -/
def crossedActs : List (Act Address Empty) :=
  [.start (FixedBytes.ofNat 20 1), .start (FixedBytes.ofNat 20 2), .go 0, .go 1, .go 0, .go 1,
    .go 1, .go 0]

/-- Two calls for one address return two columns, of which the graph keeps the second, with a
number that is too high. Two calls for two addresses leave the majority of two columns instead of
that of three. -/
theorem not_counted_sameAddress :
    run nodeCalls.step ⟨newJPGraph (FixedBytes.ofNat 20 0x0A) 3, []⟩ sameAddressActs =
        .ok (callsAfter sameAddressActs) ∧
      (callsAfter sameAddressActs).calls = [⟨FixedBytes.ofNat 20 1, .returned 1⟩,
        ⟨FixedBytes.ofNat 20 1, .returned 2⟩] ∧
      (callsAfter sameAddressActs).memory.graph.lookup (FixedBytes.ofNat 20 1) = some 2 ∧
      (callsAfter sameAddressActs).memory.numbers = [2, 0] ∧
      ¬ (callsAfter sameAddressActs).memory.Counted ∧
      run nodeCalls.step ⟨newJPGraph (FixedBytes.ofNat 20 0x0A) 3, []⟩ crossedActs =
        .ok (callsAfter crossedActs) ∧
      (callsAfter crossedActs).calls = [⟨FixedBytes.ofNat 20 1, .returned 1⟩,
        ⟨FixedBytes.ofNat 20 2, .returned 2⟩] ∧
      (callsAfter crossedActs).memory.size = 3 ∧
      (callsAfter crossedActs).memory.superMajority = 1 ∧
      ¬ (callsAfter crossedActs).memory.Counted := by
  refine ⟨eq_ok_getD (by decide +kernel) _, by decide +kernel, by decide +kernel,
    by decide +kernel, fun h => absurd h.numbers (by decide +kernel),
    eq_ok_getD (by decide +kernel) _, by decide +kernel, by decide +kernel, by decide +kernel,
    fun h => absurd h.majority (by decide +kernel)⟩

end Hashgrid.Core
