import Sirius.Net.Socket
import Sirius.Library.Runs

/-!
# Datagrams reach each port in order

A run mixes arriving packets, `socket_execute_row` and `recvfrom`. Two ghost logs record for each
port the datagrams that arrived and those that were put into the buffer of the socket of that
port. `DeliveryInv` accounts for every datagram: what arrived is what was delivered followed by
what waits in the table, oldest row first. Three situations break it: a packet overtakes a saved
one, the rows of a port lie on both sides of the next free row, and the next row is still in use.
`datagram_delivery` says that the logs agree in every run that avoids them.
-/

namespace Sirius.Net

open Library

/-! ### Sockets of a port -/

/-- No two sockets are bound to the same port. -/
def Separate (sockets : List Socket) : Prop :=
  sockets.Pairwise fun a b => ∀ port, a.accepts port = true → b.accepts port = false

/-- The socket bound to a port. -/
def portSocket (sockets : List Socket) (port : BitVec 16) : Option Socket :=
  sockets.find? (Socket.accepts port)

/-- The sockets after a packet was put into the buffer of the socket of its port. -/
def deliver (p : Packet) (sockets : List Socket) : List Socket :=
  sockets.map fun saddr => if saddr.accepts p.destPort then saddr.fill p else saddr

@[simp] theorem accepts_fill (saddr : Socket) (p : Packet) (port : BitVec 16) :
    (saddr.fill p).accepts port = saddr.accepts port := by
  have hbit : ∀ f : BitVec 8, (f ||| 0x2#8) &&& 0x80#8 = f &&& 0x80#8 := by decide
  simp only [Socket.accepts, Socket.fill, hbit]

@[simp] theorem full_fill (saddr : Socket) (p : Packet) : (saddr.fill p).full = true := by
  have hbit : ∀ f : BitVec 8, (f ||| 0x2#8) &&& 0x2#8 ≠ 0#8 := by decide
  exact decide_eq_true (hbit saddr.flags)

@[simp] theorem accepts_clean (saddr : Socket) (port : BitVec 16) :
    saddr.clean.accepts port = saddr.accepts port := by
  have hbit : ∀ f : BitVec 8, (f &&& ~~~0x2#8) &&& 0x80#8 = f &&& 0x80#8 := by decide
  simp only [Socket.accepts, Socket.clean, hbit]

@[simp] theorem full_clean (saddr : Socket) : saddr.clean.full = false := by
  have hbit : ∀ f : BitVec 8, ¬ (f &&& ~~~0x2#8) &&& 0x2#8 ≠ 0#8 := by decide
  exact decide_eq_false (hbit saddr.flags)

section Sockets

variable {sockets : List Socket} {port : BitVec 16} {saddr : Socket} {p : Packet}

theorem port_socket_none : portSocket sockets port = none ↔
    ∀ s ∈ sockets, s.accepts port = false := by
  simp [portSocket, List.find?_eq_none]

theorem port_socket_first {a : Socket} (ha : a.accepts port = true) :
    portSocket (a :: sockets) port = some a := by
  simp [portSocket, ha]

theorem port_socket_skip {a : Socket} (ha : ¬ a.accepts port = true) :
    portSocket (a :: sockets) port = portSocket sockets port := by
  simp [portSocket, ha]

theorem port_socket_accepts (h : portSocket sockets port = some saddr) :
    saddr.accepts port = true :=
  List.find?_some h

/-- A socket is bound to at most one port. -/
theorem accepts_unique {q : BitVec 16} (h : saddr.accepts port = true)
    (hq : saddr.accepts q = true) : port = q := by
  simp only [Socket.accepts, decide_eq_true_eq] at h hq
  exact h.2.2.symm.trans hq.2.2

/-- A packet for another port leaves the sockets as they are. -/
theorem deliver_none (h : portSocket sockets p.destPort = none) : deliver p sockets = sockets := by
  rw [port_socket_none] at h
  refine (List.map_congr_left fun s hs => ?_).trans (List.map_id _)
  simp [h s hs]

theorem port_socket_deliver (sockets : List Socket) (port : BitVec 16) (p : Packet) :
    portSocket (deliver p sockets) port =
      (portSocket sockets port).map fun s => if port = p.destPort then s.fill p else s := by
  induction sockets with
  | nil => rfl
  | cons a rest ih =>
      by_cases ha : a.accepts port = true
      · by_cases hq : port = p.destPort
        · simp [deliver, portSocket, ← hq, ha]
        · have hno : a.accepts p.destPort = false := by
            rw [← Bool.not_eq_true]
            intro hyes
            exact hq (accepts_unique ha hyes)
          simp [deliver, portSocket, hno, ha, hq]
      · have hskip : ((if a.accepts p.destPort then a.fill p else a).accepts port) = false := by
          split <;> simp [ha]
        have htail : portSocket (deliver p (a :: rest)) port =
            portSocket (deliver p rest) port := by
          simp [deliver, portSocket, hskip]
        rw [htail, ih]
        simp [portSocket, ha]

theorem separate_deliver (h : Separate sockets) : Separate (deliver p sockets) := by
  refine List.pairwise_map.mpr (h.imp fun {a b} hab q hq => ?_)
  have hsame : ∀ s : Socket, (if s.accepts p.destPort then s.fill p else s).accepts q =
      s.accepts q := fun s => by split <;> simp
  rw [hsame] at hq ⊢
  exact hab q hq

theorem port_socket_clean (id : Nat) (sockets : List Socket) (port : BitVec 16) :
    portSocket (updateSocket id Socket.clean sockets) port = portSocket sockets port ∨
      ∃ s, portSocket sockets port = some s ∧
        portSocket (updateSocket id Socket.clean sockets) port = some s.clean := by
  induction sockets with
  | nil => exact .inl rfl
  | cons a rest ih =>
      by_cases hid : a.id = id
      · by_cases ha : a.accepts port = true
        · exact .inr ⟨a, by simp [portSocket, ha], by simp [portSocket, updateSocket, hid, ha]⟩
        · exact .inl (by simp [portSocket, updateSocket, hid, ha])
      · by_cases ha : a.accepts port = true
        · exact .inl (by simp [portSocket, updateSocket, hid, ha])
        · simpa [portSocket, updateSocket, hid, ha] using ih

theorem separate_clean (id : Nat) (h : Separate sockets) :
    Separate (updateSocket id Socket.clean sockets) := by
  induction sockets with
  | nil => exact h
  | cons a rest ih =>
      obtain ⟨hhead, hrest⟩ := List.pairwise_cons.mp h
      by_cases hid : a.id = id
      · rw [updateSocket, if_pos hid]
        refine List.pairwise_cons.mpr ⟨fun b hb port hport => hhead b hb port ?_, hrest⟩
        rwa [accepts_clean] at hport
      · rw [updateSocket, if_neg hid]
        refine List.pairwise_cons.mpr ⟨fun b hb port hport => ?_, ih hrest⟩
        -- the cleaned socket is bound to the port it was bound to
        have hall : portSocket (updateSocket id Socket.clean rest) port = none := by
          rcases port_socket_clean id rest port with hsame | ⟨s, hs, -⟩
          · rw [hsame, port_socket_none]
            exact fun c hc => hhead c hc port hport
          · have hmem := hhead s (List.mem_of_find?_eq_some hs) port hport
            rw [port_socket_accepts hs] at hmem
            cases hmem
        exact port_socket_none.mp hall b hb

/-! ### The two receive loops -/

/-- `socket_server_receive` delivers to an empty socket, saves for a full one and ignores a port
without a socket. -/
theorem receive_loop_eq (h : Separate sockets) (net : Sockets) :
    receiveLoop 0 p sockets net = match portSocket sockets p.destPort with
      | none => some (sockets, net)
      | some s => if s.full = true then (socketSaveRow p net).map fun net => (sockets, net)
          else some (deliver p sockets, net) := by
  induction sockets generalizing net with
  | nil => rfl
  | cons a rest ih =>
      obtain ⟨hhead, hrest⟩ := List.pairwise_cons.mp h
      by_cases ha : a.accepts p.destPort = true
      · -- no other socket takes the packet
        have hnone : portSocket rest p.destPort = none :=
          port_socket_none.mpr fun s hs => hhead s hs _ ha
        rw [port_socket_first ha]
        cases hfull : a.full with
        | true =>
            have hloop := fun net => ih hrest net
            simp only [hnone] at hloop
            simp only [receiveLoop, ha, hfull, saveIfFull, hloop]
            cases socketSaveRow p net <;> simp
        | false =>
            have hdeliver := deliver_none hnone
            simp only [deliver] at hdeliver
            simp [receiveLoop, ha, hfull, deliver, hdeliver]
      · have hloop : receiveLoop 0 p (a :: rest) net =
            (receiveLoop 0 p rest net).bind fun r => some (a :: r.1, r.2) := by
          simp [receiveLoop, ha, saveIfFull]
        rw [port_socket_skip ha, hloop, ih hrest net]
        cases portSocket rest p.destPort with
        | none => rfl
        | some s =>
            cases hfull : s.full with
            | false => simp [hfull, deliver, ha]
            | true => cases socketSaveRow p net <;> simp [hfull]

/-- `socket_server_receive_offline` delivers to an empty socket and reports 1 otherwise. -/
theorem offline_eq (h : Separate sockets) :
    socketServerReceiveOffline p sockets = match portSocket sockets p.destPort with
      | none => (1, sockets)
      | some s => if s.full = true then (1, sockets) else (0, deliver p sockets) := by
  induction sockets with
  | nil => rfl
  | cons a rest ih =>
      obtain ⟨hhead, hrest⟩ := List.pairwise_cons.mp h
      by_cases ha : a.accepts p.destPort = true
      · have hnone : portSocket rest p.destPort = none :=
          port_socket_none.mpr fun s hs => hhead s hs _ ha
        rw [port_socket_first ha]
        cases hfull : a.full with
        | true =>
            have hloop := ih hrest
            simp only [hnone] at hloop
            simp [socketServerReceiveOffline, hfull, hloop]
        | false =>
            have hdeliver := deliver_none hnone
            simp only [deliver] at hdeliver
            simp [socketServerReceiveOffline, ha, hfull, deliver, hdeliver]
      · have hloop : socketServerReceiveOffline p (a :: rest) =
            ((socketServerReceiveOffline p rest).1, a :: (socketServerReceiveOffline p rest).2) := by
          simp [socketServerReceiveOffline, ha]
        rw [port_socket_skip ha, hloop, ih hrest]
        cases portSocket rest p.destPort with
        | none => rfl
        | some s => cases hfull : s.full <;> simp [hfull, deliver, ha]

end Sockets

/-! ### Saved packets -/

/-- What a program learns of a packet: where it came from and its payload. -/
structure Datagram where
  srcIp : BitVec 32
  srcPort : BitVec 16
  payload : List Byte
  deriving DecidableEq

/-- The datagram an arriving packet carries. -/
def Packet.datagram (p : Packet) : Datagram :=
  ⟨p.srcIp, p.srcPort, (List.range p.length).map p.buffer⟩

/-- The datagram in the buffer of a socket. -/
def Socket.datagram (saddr : Socket) : Datagram :=
  ⟨saddr.recvDestIp, saddr.recvDestPort, (List.range saddr.length1).map saddr.buf1⟩

/-- A copy at the start of a buffer reads back. -/
theorem range_map_copy (dst src : Bytes) (n : Nat) :
    (List.range n).map (copyBytes dst 0 src 0 n) = (List.range n).map src := by
  refine List.map_congr_left fun i hi => ?_
  have hcopy : copyBytes dst 0 src 0 n (0 + i) = src (0 + i) :=
    copy_bytes_inside (List.mem_range.mp hi)
  simpa using hcopy

@[simp] theorem datagram_fill (saddr : Socket) (p : Packet) :
    (saddr.fill p).datagram = p.datagram := by
  simp only [Socket.datagram, Socket.fill, Packet.datagram, range_map_copy]

/-- Row `i` holds a packet for the port. -/
def Sockets.waits (net : Sockets) (port : BitVec 16) (i : Nat) : Bool :=
  (net.socktReceiveRow i).status &&& 1#8 ≠ 0#8 ∧
    (net.socktReceiveRow i).packet.destPort = port

/-- The rows in the order in which they were saved: `row_cur` is the oldest. -/
def rowOrder (rowCur : Nat) : List Nat :=
  List.range' rowCur (rowNum - rowCur) ++ List.range rowCur

/-- The saved datagrams of a port, oldest first. -/
def Sockets.waiting (net : Sockets) (port : BitVec 16) : List Datagram :=
  ((rowOrder net.rowCur).filter (net.waits port)).map fun i =>
    (net.socktReceiveRow i).packet.datagram

/-- The rows of a port do not lie on both sides of `row_cur`. -/
def Sockets.OneSided (net : Sockets) (port : BitVec 16) : Prop :=
  ∀ i < net.rowCur, ∀ j < rowNum, net.rowCur ≤ j → net.waits port i = true →
    net.waits port j = false

/-- Every row is free or holds a packet. -/
def Sockets.RowsValid (net : Sockets) : Prop :=
  ∀ i, (net.socktReceiveRow i).status = 0#8 ∨ (net.socktReceiveRow i).status = 1#8

/-- Moving `row_cur` on makes the oldest row the newest one. -/
theorem row_order_next {cur : Nat} (h : cur < rowNum) :
    ∃ rest, rowOrder cur = cur :: rest ∧ rowOrder ((cur + 1) % rowNum) = rest ++ [cur] ∧
      cur ∉ rest := by
  have hnum : rowNum = 128 := rfl
  obtain ⟨k, hk⟩ : ∃ k, rowNum - cur = k + 1 := ⟨rowNum - cur - 1, by omega⟩
  refine ⟨List.range' (cur + 1) k ++ List.range cur, ?_, ?_, ?_⟩
  · rw [rowOrder, hk, List.range'_succ, List.cons_append]
  · by_cases hlast : cur + 1 < rowNum
    · rw [rowOrder, Nat.mod_eq_of_lt hlast, List.range_succ, List.append_assoc,
        show rowNum - (cur + 1) = k by omega]
    · have hwrap : cur + 1 = rowNum := by omega
      have hk' : k = 0 := by omega
      rw [hwrap, Nat.mod_self, rowOrder, Nat.sub_zero, ← hwrap, List.range_zero, List.append_nil,
        ← List.range_eq_range', List.range_succ, hk', List.range'_zero, List.nil_append]
  · simp [List.mem_range'_1]

/-- Saving a packet in a free row puts it behind the saved packets of its port. -/
theorem save_row_spec {net : Sockets} (hvalid : net.RowsValid) (hcur : net.rowCur < rowNum)
    (hfree : (net.socktReceiveRow net.rowCur).status = 0#8) (p : Packet) :
    ∃ net', socketSaveRow p net = some net' ∧ net'.sockets = net.sockets ∧ net'.RowsValid ∧
      net'.rowCur < rowNum ∧ ∀ port, net'.waiting port =
        net.waiting port ++ if port = p.destPort then [p.datagram] else [] := by
  obtain ⟨net', hsave, hsockets, hcur', hrow, hother⟩ : ∃ net', socketSaveRow p net = some net' ∧
      net'.sockets = net.sockets ∧ net'.rowCur = (net.rowCur + 1) % rowNum ∧
      net'.socktReceiveRow net.rowCur = ⟨1#8, { p with
        buffer :=
          copyBytes (net.socktReceiveRow net.rowCur).packet.buffer 0 p.buffer 0 p.length }⟩ ∧
      ∀ i, i ≠ net.rowCur → net'.socktReceiveRow i = net.socktReceiveRow i :=
    ⟨_, if_neg (not_not_intro hfree), rfl, rfl, Function.update_self ..,
      fun i hi => Function.update_of_ne hi ..⟩
  refine ⟨net', hsave, hsockets, fun i => ?_, ?_, fun port => ?_⟩
  · by_cases hi : i = net.rowCur
    · exact .inr (by rw [hi, hrow])
    · rw [hother i hi]
      exact hvalid i
  · rw [hcur']
    exact Nat.mod_lt _ (by decide)
  · obtain ⟨rest, horder, hnext, hnot⟩ := row_order_next hcur
    have hne : ∀ i ∈ rest, i ≠ net.rowCur := fun i hi heq => hnot (heq ▸ hi)
    have hold : net.waits port net.rowCur = false := by simp [Sockets.waits, hfree]
    have hkeep : ∀ i ∈ rest, net'.waits port i = net.waits port i := by
      intro i hi
      simp only [Sockets.waits, hother i (hne i hi)]
    -- the rows saved before, and the new one behind them
    have hbefore : net.waiting port = (rest.filter (net.waits port)).map fun i =>
        (net.socktReceiveRow i).packet.datagram := by
      simp [Sockets.waiting, horder, hold]
    have hafter : net'.waiting port = ((rest.filter (net.waits port)).map fun i =>
        (net.socktReceiveRow i).packet.datagram) ++
          if net'.waits port net.rowCur = true then
            [(net'.socktReceiveRow net.rowCur).packet.datagram] else [] := by
      rw [Sockets.waiting, hcur', hnext, List.filter_append, List.map_append,
        List.filter_congr hkeep]
      congr 1
      · refine List.map_congr_left fun i hi => ?_
        rw [hother i (hne i (List.mem_of_mem_filter hi))]
      · cases hnew : net'.waits port net.rowCur <;> simp [hnew]
    rw [hafter, hbefore]
    congr 1
    by_cases hport : port = p.destPort
    · simp [Sockets.waits, hrow, hport, Packet.datagram, range_map_copy]
    · simp [Sockets.waits, hrow, hport, Ne.symm hport]

/-! ### Draining the table -/

/-- What draining keeps. -/
structure Drained (net net' : Sockets) : Prop where
  separate : Separate net'.sockets
  rowCur : net'.rowCur = net.rowCur
  packet : ∀ j, (net'.socktReceiveRow j).packet = (net.socktReceiveRow j).packet
  valid : net.RowsValid → net'.RowsValid
  unbound : ∀ port, portSocket net.sockets port = none → portSocket net'.sockets port = none

/-- The row a drain of the rows `i, ..., i + n - 1` hands to the socket of a port. -/
def Sockets.taken (net : Sockets) (port : BitVec 16) (s : Socket) (i n : Nat) : Option Nat :=
  if s.full = true then none else (List.range' i n).find? (net.waits port)

/-- From `net` to `net'` the port got the packet of the row `taken`, if there is one. -/
def PortDrained (net net' : Sockets) (port : BitVec 16) (s : Socket) (taken : Option Nat) : Prop :=
  portSocket net'.sockets port = some (match taken with
    | none => s
    | some j => s.fill (net.socktReceiveRow j).packet) ∧
  ∀ k, net'.waits port k = (net.waits port k && decide (taken ≠ some k))

/-- The cases of one round of the loop of `socket_execute_row`: the row is free, or no empty socket
has its port, and nothing changes; or the socket gets the packet, and the row is free then. -/
theorem execute_row_cases {net : Sockets} (h : Separate net.sockets) (i : Nat) :
    (executeRow i net = net ∧ ∀ port s, portSocket net.sockets port = some s →
      ¬ (s.full = false ∧ net.waits port i = true)) ∨
    ∃ s, portSocket net.sockets (net.socktReceiveRow i).packet.destPort = some s ∧
      s.full = false ∧
      (∀ port, net.waits port i = true ↔ port = (net.socktReceiveRow i).packet.destPort) ∧
      executeRow i net = { net with
        sockets := deliver (net.socktReceiveRow i).packet net.sockets
        socktReceiveRow := Function.update net.socktReceiveRow i
          { net.socktReceiveRow i with status := 0#8 } } := by
  by_cases hstatus : (net.socktReceiveRow i).status &&& 1#8 = 0#8
  · refine .inl ⟨by simp [executeRow, hstatus], fun port s _ hwaits => ?_⟩
    simp [Sockets.waits, hstatus] at hwaits
  have hwaits : ∀ port, net.waits port i = true ↔
      port = (net.socktReceiveRow i).packet.destPort := by
    intro port
    simp [Sockets.waits, hstatus, eq_comm]
  have hoffline := offline_eq h (p := (net.socktReceiveRow i).packet)
  cases htarget : portSocket net.sockets (net.socktReceiveRow i).packet.destPort with
  | none =>
      rw [htarget] at hoffline
      refine .inl ⟨by simp [executeRow, hstatus, hoffline], fun port s hs hyes => ?_⟩
      rw [(hwaits port).mp hyes.2, htarget] at hs
      cases hs
  | some t =>
      rw [htarget] at hoffline
      cases hfull : t.full with
      | true =>
          simp only [hfull, if_true] at hoffline
          refine .inl ⟨by simp [executeRow, hstatus, hoffline], fun port s hs hyes => ?_⟩
          rw [(hwaits port).mp hyes.2, htarget] at hs
          obtain rfl := Option.some.inj hs
          rw [hfull] at hyes
          cases hyes.1
      | false =>
          simp only [hfull, Bool.false_eq_true, if_false] at hoffline
          exact .inr ⟨t, rfl, hfull, hwaits, by simp [executeRow, hstatus, hoffline]⟩

/-- One round of the loop of `socket_execute_row`. -/
theorem execute_row_step {net : Sockets} (h : Separate net.sockets) (i : Nat) :
    Drained net (executeRow i net) ∧ ∀ port s, portSocket net.sockets port = some s →
      PortDrained net (executeRow i net) port s
        (if s.full = false ∧ net.waits port i = true then some i else none) := by
  obtain ⟨hsame, hno⟩ | ⟨t, htarget, hfull, hwaits, hnet⟩ := execute_row_cases h i
  · rw [hsame]
    refine ⟨⟨h, rfl, fun _ => rfl, id, fun _ => id⟩, fun port s hs => ?_⟩
    rw [if_neg (hno port s hs)]
    exact ⟨hs, by simp⟩
  · have hpacket : ∀ j, ((executeRow i net).socktReceiveRow j).packet =
        (net.socktReceiveRow j).packet := by
      intro j
      rw [hnet]
      by_cases hj : j = i <;> simp [hj]
    have hfreed : ∀ port j, (executeRow i net).waits port j =
        (net.waits port j && decide (j ≠ i)) := by
      intro port j
      rw [hnet]
      by_cases hj : j = i
      · simp [Sockets.waits, hj]
      · simp [Sockets.waits, hj]
    refine ⟨⟨by rw [hnet]; exact separate_deliver h, by rw [hnet], hpacket, ?_, ?_⟩, ?_⟩
    · intro hvalid j
      rw [hnet]
      by_cases hj : j = i
      · exact .inl (by simp [hj])
      · simpa [hj] using hvalid j
    · intro port hnone
      rw [hnet]
      simp only [port_socket_deliver, hnone, Option.map_none]
    · intro port s hs
      let p := (net.socktReceiveRow i).packet
      have hsocket : portSocket (executeRow i net).sockets port =
          some (if port = p.destPort then s.fill p else s) := by
        rw [hnet]
        simp only [port_socket_deliver, hs, Option.map_some, p]
      by_cases hport : port = p.destPort
      · obtain rfl : s = t := by
          rw [hport, htarget] at hs
          exact (Option.some.inj hs).symm
        rw [if_pos ⟨hfull, (hwaits port).mpr hport⟩]
        refine ⟨by rw [hsocket, if_pos hport], fun k => ?_⟩
        rw [hfreed]
        simp [eq_comm]
      · -- the row is not one of this port, so freeing it changes nothing here
        have hno : ¬ net.waits port i = true := fun hyes => hport ((hwaits port).mp hyes)
        rw [if_neg fun hyes => hno hyes.2]
        refine ⟨by rw [hsocket, if_neg hport], fun k => ?_⟩
        rw [hfreed]
        by_cases hk : k = i
        · simp [hk, hno]
        · simp [hk]

/-- The whole loop: each empty socket gets the packet of the first row of its port. -/
theorem execute_rows_spec (n : Nat) : ∀ (i : Nat) (net : Sockets), Separate net.sockets →
    Drained net (executeRows n i net) ∧ ∀ port s, portSocket net.sockets port = some s →
      PortDrained net (executeRows n i net) port s (net.taken port s i n) := by
  induction n with
  | zero =>
      intro i net h
      refine ⟨⟨h, rfl, fun _ => rfl, id, fun _ => id⟩, fun port s hs => ?_⟩
      have hnone : net.taken port s i 0 = none := by simp [Sockets.taken]
      rw [hnone]
      exact ⟨hs, by simp [executeRows]⟩
  | succ n ih =>
      intro i net h
      obtain ⟨hdrained, hport⟩ := execute_row_step h i
      obtain ⟨hrest, hports⟩ := ih (i + 1) (executeRow i net) hdrained.separate
      refine ⟨⟨hrest.separate, hrest.rowCur.trans hdrained.rowCur,
        fun j => (hrest.packet j).trans (hdrained.packet j),
        fun hvalid => hrest.valid (hdrained.valid hvalid),
        fun port hnone => hrest.unbound port (hdrained.unbound port hnone)⟩, fun port s hs => ?_⟩
      obtain ⟨hsocket, hwaits⟩ := hport port s hs
      by_cases htake : s.full = false ∧ net.waits port i = true
      · -- the socket is full from here on
        rw [if_pos htake] at hsocket hwaits
        obtain ⟨hsocket', hwaits'⟩ := hports port _ hsocket
        have hnone : (executeRow i net).taken port (s.fill (net.socktReceiveRow i).packet)
            (i + 1) n = none := by simp [Sockets.taken]
        have htaken : net.taken port s i (n + 1) = some i := by
          simp [Sockets.taken, htake.1, htake.2, List.range'_succ]
        rw [hnone] at hsocket' hwaits'
        rw [htaken]
        refine ⟨hsocket', fun k => ?_⟩
        rw [executeRows, hwaits' k, hwaits k]
        simp
      · rw [if_neg htake] at hsocket hwaits
        obtain ⟨hsocket', hwaits'⟩ := hports port _ hsocket
        have hsame : (executeRow i net).waits port = net.waits port := by
          funext k
          simpa using hwaits k
        have htaken : net.taken port s i (n + 1) =
            (executeRow i net).taken port s (i + 1) n := by
          unfold Sockets.taken
          cases hfull : s.full with
          | true => simp
          | false =>
              have hno : net.waits port i = false := by
                rw [← Bool.not_eq_true]
                exact fun hyes => htake ⟨hfull, hyes⟩
              simp [hsame, List.range'_succ, hno]
        rw [htaken]
        refine ⟨?_, fun k => ?_⟩
        · rw [executeRows, hsocket']
          cases (executeRow i net).taken port s (i + 1) n with
          | none => rfl
          | some j => simp only [hdrained.packet]
        · rw [executeRows, hwaits' k, hsame]

/-- When the rows of a port are on one side of `row_cur`, the order of the table is their age. -/
theorem filter_row_order {net : Sockets} {port : BitVec 16} (hcur : net.rowCur < rowNum)
    (hside : net.OneSided port) :
    (rowOrder net.rowCur).filter (net.waits port) =
      (List.range' 0 rowNum).filter (net.waits port) := by
  have hsplit : List.range' 0 rowNum =
      List.range net.rowCur ++ List.range' net.rowCur (rowNum - net.rowCur) := by
    rw [List.range_eq_range']
    have happend := List.range'_append_1 (s := 0) (m := net.rowCur) (n := rowNum - net.rowCur)
    rw [Nat.zero_add, Nat.add_sub_cancel' hcur.le] at happend
    exact happend.symm
  rw [hsplit, rowOrder, List.filter_append, List.filter_append]
  by_cases hlow : ∃ i < net.rowCur, net.waits port i = true
  · obtain ⟨i, hi, hwaits⟩ := hlow
    have hhigh : (List.range' net.rowCur (rowNum - net.rowCur)).filter (net.waits port) = [] := by
      refine List.filter_eq_nil_iff.mpr fun j hj => ?_
      obtain ⟨hle, hlt⟩ := List.mem_range'_1.mp hj
      rw [hside i hi j (by omega) hle hwaits]
      exact Bool.false_ne_true
    rw [hhigh, List.nil_append, List.append_nil]
  · have hnone : (List.range net.rowCur).filter (net.waits port) = [] := by
      refine List.filter_eq_nil_iff.mpr fun i hi hwaits => ?_
      exact hlow ⟨i, List.mem_range.mp hi, hwaits⟩
    rw [hnone, List.nil_append, List.append_nil]

/-- `socket_execute_row` hands an empty socket its oldest saved datagram. -/
theorem execute_row_waiting {net : Sockets} (h : Separate net.sockets)
    (hcur : net.rowCur < rowNum) {port : BitVec 16} {s : Socket}
    (hs : portSocket net.sockets port = some s) (hside : s.full = false → net.OneSided port) :
    ∃ s', portSocket (socketExecuteRow net).sockets port = some s' ∧
      ((s' = s ∧ (socketExecuteRow net).waiting port = net.waiting port) ∨
        (s.full = false ∧ s'.full = true ∧
          net.waiting port = s'.datagram :: (socketExecuteRow net).waiting port)) := by
  obtain ⟨hdrained, hports⟩ := execute_rows_spec rowNum 0 net h
  obtain ⟨hsocket, hwaits⟩ := hports port s hs
  have hwaiting : ∀ taken, net.taken port s 0 rowNum = taken →
      (socketExecuteRow net).waiting port = (((rowOrder net.rowCur).filter (net.waits port)).filter
        fun k => decide (taken ≠ some k)).map fun i => (net.socktReceiveRow i).packet.datagram := by
    rintro taken rfl
    unfold Sockets.waiting socketExecuteRow
    rw [hdrained.rowCur, List.filter_filter]
    simp only [hdrained.packet]
    congr 1
    refine List.filter_congr fun k _ => ?_
    rw [hwaits k, Bool.and_comm]
  cases htaken : net.taken port s 0 rowNum with
  | none =>
      rw [htaken] at hsocket
      refine ⟨s, hsocket, .inl ⟨rfl, ?_⟩⟩
      rw [hwaiting none htaken, Sockets.waiting]
      simp
  | some j =>
      rw [htaken] at hsocket
      have hfull : s.full = false := by
        rw [← Bool.not_eq_true]
        intro hyes
        simp [Sockets.taken, hyes] at htaken
      refine ⟨_, hsocket, .inr ⟨hfull, full_fill .., ?_⟩⟩
      rw [hwaiting (some j) htaken, Sockets.waiting, datagram_fill,
        filter_row_order hcur (hside hfull)]
      -- row `j` is the first of the rows of the port
      have hhead : ((List.range' 0 rowNum).filter (net.waits port)).head? = some j := by
        rw [List.head?_filter]
        simpa [Sockets.taken, hfull] using htaken
      have hnodup : ((List.range' 0 rowNum).filter (net.waits port)).Nodup :=
        List.Nodup.filter _ (List.nodup_range' ..)
      cases hrows : (List.range' 0 rowNum).filter (net.waits port) with
      | nil => simp [hrows] at hhead
      | cons k rest =>
          rw [hrows] at hhead hnodup
          obtain rfl : k = j := Option.some.inj hhead
          have hnot := (List.nodup_cons.mp hnodup).1
          have hrest : rest.filter (fun i => decide (some k ≠ some i)) = rest := by
            refine List.filter_eq_self.mpr fun i hi => ?_
            have hne : k ≠ i := fun heq => hnot (heq ▸ hi)
            simpa using hne
          rw [List.filter_cons, hrest]
          simp

/-! ### Runs -/

/-- What happens in a run. -/
inductive Event where
  | arrive (p : Packet)
  | executeRow
  | recvfrom (socket : Nat) (buffer : Bytes) (length : Nat)

/-- The call of the kernel. -/
def Event.call (net : Sockets) : Event → Option Sockets
  | .arrive p => socketServerReceive 0 p net
  | .executeRow => some (socketExecuteRow net)
  | .recvfrom socket buffer length => (Net.recvfrom socket buffer length net).map Prod.snd

/-- The datagrams that arrive for a port. -/
def Event.arrivals (port : BitVec 16) : Event → List Datagram
  | .arrive p => if port = p.destPort then [p.datagram] else []
  | _ => []

/-- The datagram that a call put into the buffer of the socket of a port. -/
def handed (port : BitVec 16) (before after : List Socket) : List Datagram :=
  match portSocket before port, portSocket after port with
  | some s, some s' => if s.full = false ∧ s'.full = true then [s'.datagram] else []
  | _, _ => []

/-- The sockets with the logs of every port. -/
structure Traffic where
  net : Sockets
  arrived : BitVec 16 → List Datagram
  delivered : BitVec 16 → List Datagram

/-- The logs after a call that led to `net`. -/
def Traffic.after (t : Traffic) (event : Event) (net : Sockets) : Traffic where
  net := net
  arrived := fun port => t.arrived port ++ event.arrivals port
  delivered := fun port => t.delivered port ++ handed port t.net.sockets net.sockets

/-- One call that returns. -/
def TrafficStep (t : Traffic) (event : Event) (t' : Traffic) : Prop :=
  ∃ net, event.call t.net = some net ∧ t' = t.after event net

/-- The situations in which the code keeps the order. A packet for an empty socket must not
overtake a saved one, a packet for a full socket needs a free row, and `socket_execute_row` must
not meet the rows of a port on both sides of `row_cur`. -/
def Event.InOrder (t : Traffic) : Event → Prop
  | .arrive p => p.length ≤ 8192 ∧ ∀ s, portSocket t.net.sockets p.destPort = some s →
      if s.full = true then (t.net.socktReceiveRow t.net.rowCur).status = 0#8
      else t.net.waiting p.destPort = []
  | .executeRow => ∀ port s, portSocket t.net.sockets port = some s → s.full = false →
      t.net.OneSided port
  | .recvfrom _ _ _ => True

/-- Every datagram for a port with a socket was delivered or waits, in the order of arrival. -/
structure DeliveryInv (t : Traffic) : Prop where
  separate : Separate t.net.sockets
  valid : t.net.RowsValid
  rowCur : t.net.rowCur < rowNum
  accounted : ∀ port s, portSocket t.net.sockets port = some s →
    t.arrived port = t.delivered port ++ t.net.waiting port

theorem handed_same {port : BitVec 16} {before after : List Socket}
    (h : portSocket after port = portSocket before port) : handed port before after = [] := by
  unfold handed
  rw [h]
  cases portSocket before port with
  | none => rfl
  | some s => cases hfull : s.full <;> simp [hfull]

section Events

variable {t : Traffic}

/-- An arriving packet keeps the accounts. -/
theorem arrive_inv (h : DeliveryInv t) (p : Packet) (hgood : (Event.arrive p).InOrder t) :
    ∃ net, (Event.arrive p).call t.net = some net ∧ DeliveryInv (t.after (.arrive p) net) := by
  have hreceive := receive_loop_eq h.separate t.net (p := p)
  cases htarget : portSocket t.net.sockets p.destPort with
  | none =>
      rw [htarget] at hreceive
      refine ⟨t.net, by simp [Event.call, socketServerReceive, hreceive], h.separate, h.valid,
        h.rowCur, fun port s hs => ?_⟩
      have hport : port ≠ p.destPort := by
        rintro rfl
        rw [show portSocket t.net.sockets p.destPort = some s from hs] at htarget
        cases htarget
      simpa [Traffic.after, Event.arrivals, hport, handed_same] using h.accounted port s hs
  | some s₀ =>
      rw [htarget] at hreceive
      have hcases := hgood.2 s₀ htarget
      cases hfull : s₀.full with
      | true =>
          rw [if_pos hfull] at hcases
          simp only [hfull, if_true] at hreceive
          obtain ⟨net, hsave, hsockets, hvalid, hcur, hwaiting⟩ :=
            save_row_spec h.valid h.rowCur hcases p
          have hsame : { net with sockets := t.net.sockets } = net := by rw [← hsockets]
          refine ⟨net, by simp [Event.call, socketServerReceive, hreceive, hsave, hsame],
            hsockets ▸ h.separate, hvalid, hcur, fun port s hs => ?_⟩
          have hold : portSocket t.net.sockets port = some s := hsockets ▸ hs
          simp only [Traffic.after, Event.arrivals, hsockets, handed_same, hwaiting port,
            List.append_nil]
          rw [h.accounted port s hold, List.append_assoc]
      | false =>
          rw [if_neg (by simp [hfull])] at hcases
          simp only [hfull, Bool.false_eq_true, if_false] at hreceive
          refine ⟨{ t.net with sockets := deliver p t.net.sockets },
            by simp [Event.call, socketServerReceive, hreceive], separate_deliver h.separate,
            h.valid, h.rowCur, fun port s hs => ?_⟩
          have hdeliver := port_socket_deliver t.net.sockets port p
          simp only [Traffic.after, Event.arrivals] at hs ⊢
          by_cases hport : port = p.destPort
          · -- nothing was waiting, so the packet is the next one of its port
            have hold : portSocket t.net.sockets port = some s₀ := by rw [hport, htarget]
            rw [hold, Option.map_some, if_pos hport] at hdeliver
            have hhanded : handed port t.net.sockets (deliver p t.net.sockets) =
                [p.datagram] := by
              simp [handed, hold, hdeliver, hfull]
            have hnone : Sockets.waiting { t.net with sockets := deliver p t.net.sockets } port =
                [] := hport ▸ hcases
            have haccounted := h.accounted port s₀ hold
            rw [hport, hcases, List.append_nil, ← hport] at haccounted
            rw [hhanded, hnone, if_pos hport, haccounted, List.append_nil]
          · simp only [hport, if_false, Option.map_id'] at hdeliver
            rw [handed_same hdeliver, if_neg hport, List.append_nil, List.append_nil]
            exact h.accounted port s (hdeliver.symm.trans hs)

/-- Draining the table keeps the accounts. -/
theorem execute_inv (h : DeliveryInv t) (hgood : Event.executeRow.InOrder t) :
    DeliveryInv (t.after .executeRow (socketExecuteRow t.net)) := by
  obtain ⟨hdrained, hports⟩ := execute_rows_spec rowNum 0 t.net h.separate
  refine ⟨hdrained.separate, hdrained.valid h.valid, hdrained.rowCur ▸ h.rowCur,
    fun port s' hs' => ?_⟩
  obtain ⟨s, hs⟩ : ∃ s, portSocket t.net.sockets port = some s := by
    refine Option.ne_none_iff_exists'.mp fun hnone => ?_
    have hnone' := hdrained.unbound port hnone
    rw [show portSocket (executeRows rowNum 0 t.net).sockets port = some s' from hs'] at hnone'
    cases hnone'
  have haccounted := h.accounted port s hs
  obtain ⟨s₁, hs₁, hcases⟩ := execute_row_waiting h.separate h.rowCur hs (hgood port s hs)
  simp only [Traffic.after, Event.arrivals, List.append_nil]
  rcases hcases with ⟨heq, hwaiting⟩ | ⟨hempty, hfull, hwaiting⟩
  · rw [handed_same (by rw [hs₁, hs, heq]), List.append_nil, hwaiting]
    exact haccounted
  · have hhanded : handed port t.net.sockets (socketExecuteRow t.net).sockets =
        [s₁.datagram] := by
      simp [handed, hs, hs₁, hempty, hfull]
    rw [hhanded, haccounted, hwaiting, List.append_assoc]
    rfl

/-- `recvfrom` at most marks a buffer as read. -/
theorem recvfrom_net {socket length : Nat} {buffer : Bytes} {net net' : Sockets}
    (hcall : (Event.recvfrom socket buffer length).call net = some net') :
    net' = net ∨ net' = { net with
      sockets := updateSocket socket Socket.clean net.sockets } := by
  obtain ⟨⟨r, _⟩, hrecv, rfl⟩ := Option.map_eq_some_iff.mp hcall
  unfold recvfrom at hrecv
  split at hrecv
  · exact .inl (Prod.mk.inj (Option.some.inj hrecv)).2.symm
  · split at hrecv
    · exact .inl (Prod.mk.inj (Option.some.inj hrecv)).2.symm
    · split at hrecv
      · exact .inl (Prod.mk.inj (Option.some.inj hrecv)).2.symm
      · split at hrecv
        · cases hrecv
        · exact .inr (Prod.mk.inj (Option.some.inj hrecv)).2.symm

/-- `recvfrom` takes the datagram out of the buffer and delivers nothing. -/
theorem recvfrom_inv (h : DeliveryInv t) (socket : Nat) (buffer : Bytes) (length : Nat)
    {net : Sockets} (hcall : (Event.recvfrom socket buffer length).call t.net = some net) :
    DeliveryInv (t.after (.recvfrom socket buffer length) net) := by
  rcases recvfrom_net hcall with rfl | rfl
  · refine ⟨h.separate, h.valid, h.rowCur, fun port s hs => ?_⟩
    simp only [Traffic.after, Event.arrivals, handed_same, List.append_nil]
    exact h.accounted port s hs
  · refine ⟨separate_clean socket h.separate, h.valid, h.rowCur, fun port s hs => ?_⟩
    simp only [Traffic.after, Event.arrivals, List.append_nil] at hs ⊢
    rcases port_socket_clean socket t.net.sockets port with hsame | ⟨s₀, hs₀, hclean⟩
    · rw [handed_same hsame, List.append_nil]
      exact h.accounted port s (hsame.symm.trans hs)
    · have hhanded : handed port t.net.sockets
          (updateSocket socket Socket.clean t.net.sockets) = [] := by
        simp [handed, hs₀, hclean]
      rw [hhanded, List.append_nil]
      exact h.accounted port s₀ hs₀

/-- Every step in order keeps the accounts. -/
theorem traffic_step_inv {t' : Traffic} {event : Event} (h : DeliveryInv t)
    (hgood : event.InOrder t) (hstep : TrafficStep t event t') : DeliveryInv t' := by
  obtain ⟨net, hcall, rfl⟩ := hstep
  cases event with
  | arrive p =>
      obtain ⟨net', hcall', hinv⟩ := arrive_inv h p hgood
      obtain rfl := Option.some.inj (hcall.symm.trans hcall')
      exact hinv
  | executeRow =>
      obtain rfl := Option.some.inj hcall
      exact execute_inv h hgood
  | recvfrom socket buffer length => exact recvfrom_inv h socket buffer length hcall

end Events

/-- The state after `init_socket` and the calls of `bind`: no packet was saved, and the logs are
empty. -/
structure TrafficStart (t : Traffic) : Prop where
  separate : Separate t.net.sockets
  free : ∀ i, (t.net.socktReceiveRow i).status = 0#8
  rowCur : t.net.rowCur = 0
  arrived : ∀ port, t.arrived port = []
  delivered : ∀ port, t.delivered port = []

theorem traffic_start_inv {t : Traffic} (h : TrafficStart t) : DeliveryInv t := by
  refine ⟨h.separate, fun i => .inl (h.free i), by rw [h.rowCur]; decide, fun port s _ => ?_⟩
  have hnone : t.net.waiting port = [] := by
    simp [Sockets.waiting, Sockets.waits, h.free]
  rw [h.arrived, h.delivered, hnone]
  rfl

/-- The runs in which every step is in order. -/
abbrev OrderedRun : Traffic → Traffic → Prop := Run TrafficStep fun t event => event.InOrder t

/-- In every state of a run whose steps are in order, the datagrams that were delivered to a port
are a prefix of those that arrived for it, the others wait in the table in the order of their
arrival, and the next packet is taken as well. -/
theorem datagram_delivery (t₀ t : Traffic) (hstart : TrafficStart t₀) (hrun : OrderedRun t₀ t) :
    (∀ port s, portSocket t.net.sockets port = some s →
      t.delivered port <+: t.arrived port ∧
      t.arrived port = t.delivered port ++ t.net.waiting port) ∧
    ∀ p : Packet, (Event.arrive p).InOrder t → ∃ net, (Event.arrive p).call t.net = some net := by
  have h : DeliveryInv t := Run.invariant DeliveryInv hrun (traffic_start_inv hstart)
    fun _ _ _ hinv hgood hstep => traffic_step_inv hinv hgood hstep
  refine ⟨fun port s hs => ⟨⟨_, (h.accounted port s hs).symm⟩, h.accounted port s hs⟩,
    fun p hgood => ?_⟩
  obtain ⟨net, hcall, -⟩ := arrive_inv h p hgood
  exact ⟨net, hcall⟩

/-! ### One socket -/

/-- A datagram of one byte for port 7. -/
def packetSeven (v : Byte) : Packet := ⟨17, 1#32, 2#32, 9#16, 7#16, fun _ => v, 1, 0#32, 0#32, 0#8⟩

/-- One socket, bound to port 7. -/
def trafficSeven : Traffic where
  net := ⟨[⟨1, afInet, 7#16, 0#16, 0#32, 0#8, 0x80#8, 0, fun _ => 0#8⟩],
    fun _ => ⟨0#8, packetSeven 0#8⟩, 0⟩
  arrived := fun _ => []
  delivered := fun _ => []

theorem traffic_seven_start : TrafficStart trafficSeven :=
  ⟨List.pairwise_singleton _ _, fun _ => rfl, rfl, fun _ => rfl, fun _ => rfl⟩

/-- The result after one arriving datagram, which is delivered. -/
theorem datagram_delivery_seven : ∃ t, OrderedRun trafficSeven t ∧
    t.delivered 7#16 = [(packetSeven 1#8).datagram] ∧ t.delivered 7#16 <+: t.arrived 7#16 := by
  have hgood : (Event.arrive (packetSeven 1#8)).InOrder trafficSeven := by
    refine ⟨by decide, fun s hs => ?_⟩
    obtain rfl := Option.some.inj hs
    exact (show Sockets.waiting trafficSeven.net 7#16 = [] by decide)
  have hrun : OrderedRun trafficSeven _ := Run.refl.snoc _ hgood ⟨_, rfl, rfl⟩
  exact ⟨_, hrun, by decide, ((datagram_delivery _ _ traffic_seven_start hrun).1 7#16 _ rfl).1⟩

/-- The bounds that the runs are promised: short payloads, and never 128 waiting packets. -/
def Event.Bounded (t : Traffic) : Event → Prop
  | .arrive p => p.length ≤ 8192 ∧ ∃ i < rowNum, (t.net.socktReceiveRow i).status = 0#8
  | _ => True

/-- Of three datagrams for one port the third overtakes the second: it arrives when the first one
has been read and the second one still waits in the table. -/
theorem datagram_overtakes : ∃ t, Run TrafficStep (fun t event => event.Bounded t) trafficSeven t ∧
    ¬ t.delivered 7#16 <+: t.arrived 7#16 := by
  refine ⟨_, (((Run.refl.snoc (.arrive (packetSeven 1#8)) ⟨by decide, 5, by decide, rfl⟩
    ⟨_, rfl, rfl⟩).snoc (.arrive (packetSeven 2#8)) ⟨by decide, 5, by decide, rfl⟩
    ⟨_, rfl, rfl⟩).snoc (.recvfrom 1 (fun _ => 0#8) 1) trivial
    ⟨_, rfl, rfl⟩).snoc (.arrive (packetSeven 3#8)) ⟨by decide, 5, by decide, rfl⟩
    ⟨_, rfl, rfl⟩, by decide⟩

end Sirius.Net
