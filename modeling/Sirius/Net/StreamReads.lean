import Sirius.Net.DatagramDelivery
import Sirius.Net.TcpReceive

/-!
# Reading a stream

`recv` of the user library. The buffer of a socket holds one packet at a time; a call takes it out
whole and copies as much of it as the caller has room for. The logs of a run hold the bytes that
were put into the buffer of a socket, those that calls of `recv` took out, and those that the calls
returned. `recv_lossless_iff` says in which runs the last two are the same.
-/

namespace Sirius.Net

open Library

/-- `recv` with a buffer: the result, the buffer afterwards, and the sockets. `none` are the loops
that wait until nothing is to be sent and until a packet is there. -/
def recv (socket : Nat) (buffer : Bytes) (length : Nat) (net : Sockets) :
    Option ((Nat × Bytes) × Sockets) :=
  if length = 0 then some ((0, buffer), net)
  else match net.sockets.find? fun saddr => saddr.id = socket with
    | none => some ((0, buffer), net)
    | some fd =>
        let cleaned := { net with sockets := updateSocket socket Socket.clean net.sockets }
        if fd.flags &&& 0x80#8 = 0#8 then some ((0, buffer), net)
        else if fd.flags &&& 1#8 ≠ 0#8 ∨ fd.full = false then none
        else if fd.protocolFlags ≠ tcpFlagPsh ||| tcpFlagAck then some ((0, buffer), cleaned)
        else
          let length := if fd.length1 < length then fd.length1 else length
          some ((length, copyBytes buffer 0 fd.buf1 0 length), cleaned)

/-! ### What a socket has for its reader -/

/-- The bytes in the buffer of a socket. -/
def Socket.payload (saddr : Socket) : List Byte := (List.range saddr.length1).map saddr.buf1

/-- The bytes that have not been read. -/
def Socket.unread (saddr : Socket) : List Byte := if saddr.full then saddr.payload else []

/-- The unread bytes of the socket that `socket_address` finds. -/
def unreadOf (socket : Nat) (sockets : List Socket) : List Byte :=
  ((sockets.find? fun saddr => saddr.id = socket).map Socket.unread).getD []

/-- The bytes that a call put into the empty buffer of the socket. -/
def putInto (socket : Nat) (before after : Sockets) : List Byte :=
  if unreadOf socket before.sockets = [] then unreadOf socket after.sockets else []

/-- The bytes that a call took out of the buffer of the socket. -/
def takenFrom (socket : Nat) (before after : Sockets) : List Byte :=
  if unreadOf socket after.sockets = [] then unreadOf socket before.sockets else []

/-! ### Runs -/

/-- A packet arrives, `socket_execute_row` runs, or a program calls `recv`. -/
inductive ReadEvent where
  | arrive (p : Packet)
  | executeRow
  | recv (socket : Nat) (buffer : Bytes) (length : Nat)

/-- The sockets with the logs of one of them. -/
structure Reads where
  net : Sockets
  delivered : List Byte
  consumed : List Byte
  returned : List Byte

/-- A call that returns, with the logs of the socket `k`. -/
inductive ReadStep (k : Nat) : Reads → ReadEvent → Reads → Prop where
  | arrive (s : Reads) (p : Packet) (net : Sockets) :
      socketServerReceive 0 p s.net = some net →
      ReadStep k s (.arrive p) { s with
        net := net
        delivered := s.delivered ++ putInto k s.net net }
  | executeRow (s : Reads) :
      ReadStep k s .executeRow { s with
        net := socketExecuteRow s.net
        delivered := s.delivered ++ putInto k s.net (socketExecuteRow s.net) }
  | recv (s : Reads) (buffer out : Bytes) (length result : Nat) (net : Sockets) :
      Net.recv k buffer length s.net = some ((result, out), net) →
      ReadStep k s (.recv k buffer length) { s with
        net := net
        consumed := s.consumed ++ takenFrom k s.net net
        returned := s.returned ++ (List.range result).map out }
  | other (s : Reads) (socket : Nat) (buffer out : Bytes) (length result : Nat) (net : Sockets) :
      socket ≠ k → Net.recv socket buffer length s.net = some ((result, out), net) →
      ReadStep k s (.recv socket buffer length) { s with net := net }

/-- A call of `recv` on the socket `k` that reads a packet finds all of it: the payload fits into
the caller's buffer and its segment carries no flags but these two, or there is no payload. -/
def ReadEvent.Fits (k : Nat) (s : Reads) : ReadEvent → Prop
  | .recv socket _ length => socket = k → length ≠ 0 →
      ∀ fd, (s.net.sockets.find? fun saddr => saddr.id = socket) = some fd →
        fd.flags &&& 0x80#8 ≠ 0#8 →
        fd.length1 = 0 ∨ (fd.protocolFlags = tcpFlagPsh ||| tcpFlagAck ∧ fd.length1 ≤ length)
  | _ => True

/-- The logs begin: nothing has been read. -/
structure Reads.Fresh (k : Nat) (s : Reads) : Prop where
  delivered : s.delivered = unreadOf k s.net.sockets
  consumed : s.consumed = []
  returned : s.returned = []

/-! ### Delivery -/

section Delivery

variable {k : Nat} {p : Packet}

@[simp] theorem unread_of_nil (k : Nat) : unreadOf k [] = [] := rfl

theorem unread_of_cons (k : Nat) (a : Socket) (rest : List Socket) :
    unreadOf k (a :: rest) = if a.id = k then a.unread else unreadOf k rest := by
  by_cases h : a.id = k <;> simp [unreadOf, h]

theorem unread_fill (a : Socket) (p : Packet) : (a.fill p).unread = p.payload := by
  rw [Socket.unread, full_fill, if_pos rfl]
  exact range_map_copy a.buf1 p.buffer p.length

theorem unread_of_not_full {a : Socket} (h : a.full = false) : a.unread = [] := by
  rw [Socket.unread, h]
  rfl

/-- Either the socket has what it had before, or it had nothing and has the packet now. -/
def Delivers (k : Nat) (p : Packet) (before after : List Socket) : Prop :=
  unreadOf k after = unreadOf k before ∨
    (unreadOf k before = [] ∧ unreadOf k after = p.payload)

theorem Delivers.cons {rest rest' : List Socket} (a : Socket) (h : Delivers k p rest rest') :
    Delivers k p (a :: rest) (a :: rest') := by
  rw [Delivers, unread_of_cons, unread_of_cons]
  by_cases hid : a.id = k
  · rw [if_pos hid, if_pos hid]
    exact .inl rfl
  · rw [if_neg hid, if_neg hid]
    exact h

theorem delivers_fill {a : Socket} (h : a.full = false) (rest : List Socket) :
    Delivers k p (a :: rest) (a.fill p :: rest) := by
  have hid : (a.fill p).id = a.id := rfl
  rw [Delivers, unread_of_cons, unread_of_cons, hid, unread_fill, unread_of_not_full h]
  by_cases hk : a.id = k
  · rw [if_pos hk, if_pos hk]
    exact .inr ⟨rfl, rfl⟩
  · rw [if_neg hk, if_neg hk]
    exact .inl rfl

theorem receive_loop_delivers {origem : Nat} {sockets sockets' : List Socket} {net net' : Sockets}
    (h : receiveLoop origem p sockets net = some (sockets', net')) :
    Delivers k p sockets sockets' := by
  induction sockets generalizing net net' sockets' with
  | nil =>
      obtain ⟨rfl, -⟩ := Prod.mk.inj (Option.some.inj h)
      exact .inl rfl
  | cons a rest ih =>
      rw [receiveLoop] at h
      split at h
      · next htakes =>
          obtain ⟨rfl, -⟩ := Prod.mk.inj (Option.some.inj h)
          exact delivers_fill htakes.2 rest
      · obtain ⟨net₁, -, h⟩ := Option.bind_eq_some_iff.mp h
        obtain ⟨⟨rest', net₂⟩, hrest, h⟩ := Option.bind_eq_some_iff.mp h
        obtain ⟨rfl, -⟩ := Prod.mk.inj (Option.some.inj h)
        exact (ih hrest).cons a

theorem offline_delivers (k : Nat) (p : Packet) (sockets : List Socket) :
    Delivers k p sockets (socketServerReceiveOffline p sockets).2 := by
  induction sockets with
  | nil => exact .inl rfl
  | cons a rest ih =>
      rw [socketServerReceiveOffline]
      split
      · next htakes => exact delivers_fill htakes.2 rest
      · exact ih.cons a

/-- A call leaves unread bytes alone. -/
def KeepsUnread (k : Nat) (before after : Sockets) : Prop :=
  unreadOf k before.sockets ≠ [] → unreadOf k after.sockets = unreadOf k before.sockets

theorem Delivers.keeps {before after : Sockets} (h : Delivers k p before.sockets after.sockets) :
    KeepsUnread k before after := by
  intro hunread
  rcases h with hsame | ⟨hnone, -⟩
  · exact hsame
  · exact absurd hnone hunread

theorem receive_delivers {net net' : Sockets} (h : socketServerReceive 0 p net = some net') :
    Delivers k p net.sockets net'.sockets := by
  obtain ⟨⟨sockets, net₁⟩, hloop, h⟩ := Option.bind_eq_some_iff.mp h
  obtain rfl := Option.some.inj h
  exact receive_loop_delivers hloop

theorem execute_row_keeps (k i : Nat) (net : Sockets) : KeepsUnread k net (executeRow i net) := by
  rw [executeRow]
  dsimp only
  split
  · exact fun _ => rfl
  · have hoffline := offline_delivers k (net.socktReceiveRow i).packet net.sockets
    generalize socketServerReceiveOffline (net.socktReceiveRow i).packet net.sockets = r at hoffline
    obtain ⟨result, sockets⟩ := r
    dsimp only
    split
    · exact hoffline.keeps
    · exact fun _ => rfl

theorem execute_rows_keeps (k n i : Nat) (net : Sockets) :
    KeepsUnread k net (executeRows n i net) := by
  induction n generalizing i net with
  | zero => exact fun _ => rfl
  | succ n ih =>
      intro hunread
      have hrow := execute_row_keeps k i net hunread
      rw [executeRows, ← hrow]
      exact ih (i + 1) (executeRow i net) (hrow.symm ▸ hunread)

/-- What an arriving packet puts into the buffer is its payload. -/
theorem put_into_receive {net net' : Sockets} (h : socketServerReceive 0 p net = some net') :
    putInto k net net' = [] ∨ putInto k net net' = p.payload := by
  unfold putInto
  split
  · next hnone =>
      rcases receive_delivers h with hsame | ⟨-, hput⟩
      · exact .inl (hsame.trans hnone)
      · exact .inr hput
  · exact .inl rfl

/-- The unread bytes after a delivery. -/
theorem KeepsUnread.append {before after : Sockets} (h : KeepsUnread k before after) :
    unreadOf k after.sockets = unreadOf k before.sockets ++ putInto k before after := by
  unfold putInto
  split
  · next hnone => rw [hnone, List.nil_append]
  · next hunread => rw [List.append_nil, h hunread]

end Delivery

/-! ### Reads -/

section Read

variable {k socket length result : Nat} {buffer out : Bytes} {net net' : Sockets}

/-- What a call of `recv` that returns has done: nothing, or it took the packet out of the buffer
and returned the beginning of it. -/
theorem recv_cases (h : recv socket buffer length net = some ((result, out), net')) :
    (result = 0 ∧ net' = net ∧ (length = 0 ∨ ∀ fd,
        (net.sockets.find? fun saddr => saddr.id = socket) = some fd →
          fd.flags &&& 0x80#8 = 0#8)) ∨
      ∃ fd, (net.sockets.find? fun saddr => saddr.id = socket) = some fd ∧ length ≠ 0 ∧
        fd.flags &&& 0x80#8 ≠ 0#8 ∧ fd.full = true ∧
        net' = { net with sockets := updateSocket socket Socket.clean net.sockets } ∧
        (List.range result).map out = fd.payload.take
          (if fd.protocolFlags = tcpFlagPsh ||| tcpFlagAck then length else 0) := by
  unfold recv at h
  split at h
  · next hlength =>
      obtain ⟨hvalue, rfl⟩ := Prod.mk.inj (Option.some.inj h)
      obtain ⟨rfl, rfl⟩ := Prod.mk.inj hvalue
      exact .inl ⟨rfl, rfl, .inl hlength⟩
  · next hlength =>
      split at h
      · next hnone =>
          obtain ⟨hvalue, rfl⟩ := Prod.mk.inj (Option.some.inj h)
          obtain ⟨rfl, rfl⟩ := Prod.mk.inj hvalue
          refine .inl ⟨rfl, rfl, .inr fun fd hfd => ?_⟩
          rw [hnone] at hfd
          cases hfd
      · next fd hfd =>
          dsimp only at h
          split at h
          · next hbound =>
              obtain ⟨hvalue, rfl⟩ := Prod.mk.inj (Option.some.inj h)
              obtain ⟨rfl, rfl⟩ := Prod.mk.inj hvalue
              refine .inl ⟨rfl, rfl, .inr fun fd' hfd' => ?_⟩
              obtain rfl := Option.some.inj (hfd.symm.trans hfd')
              exact hbound
          · next hbound =>
              split at h
              · cases h
              · next hready =>
                  rw [not_or, Bool.not_eq_false] at hready
                  split at h
                  · next hflags =>
                      obtain ⟨hvalue, rfl⟩ := Prod.mk.inj (Option.some.inj h)
                      obtain ⟨rfl, rfl⟩ := Prod.mk.inj hvalue
                      refine .inr ⟨fd, hfd, hlength, hbound, hready.2, rfl, ?_⟩
                      rw [if_neg hflags]
                      rfl
                  · next hflags =>
                      obtain ⟨hvalue, rfl⟩ := Prod.mk.inj (Option.some.inj h)
                      obtain ⟨rfl, rfl⟩ := Prod.mk.inj hvalue
                      refine .inr ⟨fd, hfd, hlength, hbound, hready.2, rfl, ?_⟩
                      have hmin : (if fd.length1 < length then fd.length1 else length) =
                          min length fd.length1 := by
                        split <;> omega
                      rw [if_pos (not_not.mp hflags), range_map_copy, hmin, Socket.payload,
                        ← List.map_take, List.take_range]

theorem find_update_socket_other (h : socket ≠ k) (f : Socket → Socket)
    (hid : ∀ a, (f a).id = a.id) (sockets : List Socket) :
    ((updateSocket socket f sockets).find? fun saddr => saddr.id = k) =
      sockets.find? fun saddr => saddr.id = k := by
  induction sockets with
  | nil => rfl
  | cons a rest ih =>
      rw [updateSocket]
      by_cases ha : a.id = socket
      · have hne : ¬ a.id = k := fun hk => h (ha.symm.trans hk)
        rw [if_pos ha, List.find?_cons_of_neg (by simpa [hid] using hne),
          List.find?_cons_of_neg (by simpa using hne)]
      · rw [if_neg ha, List.find?_cons, List.find?_cons, ih]

/-- A cleaned socket has nothing to read. -/
theorem unread_of_clean {fd : Socket} {sockets : List Socket}
    (h : (sockets.find? fun saddr => saddr.id = socket) = some fd) :
    unreadOf socket (updateSocket socket Socket.clean sockets) = [] := by
  induction sockets with
  | nil => rfl
  | cons a rest ih =>
      rw [updateSocket]
      by_cases ha : a.id = socket
      · have hid : a.clean.id = socket := ha
        rw [if_pos ha, unread_of_cons, if_pos hid, unread_of_not_full (full_clean a)]
      · rw [List.find?_cons_of_neg (by simpa using ha)] at h
        rw [if_neg ha, unread_of_cons, if_neg ha]
        exact ih h

/-- Other sockets keep what they have. -/
theorem recv_other (h : recv socket buffer length net = some ((result, out), net'))
    (hother : socket ≠ k) : unreadOf k net'.sockets = unreadOf k net.sockets := by
  rcases recv_cases h with ⟨-, rfl, -⟩ | ⟨fd, -, -, -, -, rfl, -⟩
  · rfl
  · unfold unreadOf
    rw [find_update_socket_other hother Socket.clean (fun _ => rfl)]

/-- The unread bytes are what the call took out, followed by what is left. -/
theorem recv_taken (h : recv k buffer length net = some ((result, out), net')) :
    unreadOf k net.sockets = takenFrom k net net' ++ unreadOf k net'.sockets := by
  unfold takenFrom
  rcases recv_cases h with ⟨-, rfl, -⟩ | ⟨fd, hfd, -, -, -, rfl, -⟩
  · split
    · next hnone => rw [hnone]; rfl
    · rw [List.nil_append]
  · rw [unread_of_clean hfd, if_pos rfl, List.append_nil]

/-- What a call returns is the beginning of what it took out of the buffer, and all of it exactly
when the packet fits. -/
theorem recv_returned {s : Reads} (h : recv k buffer length s.net = some ((result, out), net')) :
    (List.range result).map out <+: takenFrom k s.net net' ∧
      ((List.range result).map out = takenFrom k s.net net' ↔
        (ReadEvent.recv k buffer length).Fits k s) := by
  rcases recv_cases h with ⟨rfl, rfl, hidle⟩ | ⟨fd, hfd, hlength, hbound, hfull, rfl, hreturned⟩
  · have hnone : takenFrom k s.net s.net = [] := by
      unfold takenFrom
      split
      · assumption
      · rfl
    rw [hnone]
    refine ⟨List.prefix_refl _, iff_of_true rfl fun _ hlength fd hfd hbound => ?_⟩
    rcases hidle with hzero | hunbound
    · exact absurd hzero hlength
    · exact absurd (hunbound fd hfd) hbound
  · have htaken : takenFrom k s.net
        { s.net with sockets := updateSocket k Socket.clean s.net.sockets } = fd.payload := by
      rw [takenFrom, if_pos (unread_of_clean hfd), unreadOf, hfd, Option.map_some,
        Option.getD_some, Socket.unread, if_pos hfull]
    rw [htaken, hreturned]
    refine ⟨List.take_prefix _ _, ?_⟩
    rw [List.take_eq_self_iff]
    have hcount : fd.payload.length = fd.length1 := by
      rw [Socket.payload, List.length_map, List.length_range]
    rw [hcount]
    constructor
    · intro hle _ _ fd' hfd' _
      obtain rfl := Option.some.inj (hfd.symm.trans hfd')
      split at hle
      · next hflags => exact .inr ⟨hflags, hle⟩
      · exact .inl (Nat.le_zero.mp hle)
    · intro hfits
      rcases hfits rfl hlength fd hfd hbound with hempty | ⟨hflags, hle⟩
      · rw [hempty]
        exact Nat.zero_le _
      · rw [if_pos hflags]
        exact hle

end Read

/-! ### The logs of a run -/

section Runs

variable {k : Nat} {start s t : Reads} {event : ReadEvent}

/-- The bytes put into the buffer are those taken out and those that are unread. -/
def Accounted (k : Nat) (s : Reads) : Prop :=
  s.delivered = s.consumed ++ unreadOf k s.net.sockets

theorem read_step_accounted (h : Accounted k s) (hstep : ReadStep k s event t) :
    Accounted k t := by
  unfold Accounted at *
  cases hstep with
  | arrive p net hcall =>
      have hkeeps := (receive_delivers hcall).keeps (k := k)
      rw [h, hkeeps.append, List.append_assoc]
  | executeRow =>
      have hkeeps : KeepsUnread k s.net (socketExecuteRow s.net) :=
        execute_rows_keeps k rowNum 0 s.net
      rw [h, hkeeps.append, List.append_assoc]
  | recv buffer out length result net hcall =>
      rw [h, List.append_assoc, ← recv_taken hcall]
  | other socket buffer out length result net hother hcall =>
      rw [h, recv_other hcall hother]

/-- What a step adds to the last two logs. -/
theorem read_step_logs (hstep : ReadStep k s event t) :
    ∃ a b, t.returned = s.returned ++ a ∧ t.consumed = s.consumed ++ b ∧ a <+: b ∧
      (a = b ↔ event.Fits k s) := by
  cases hstep with
  | arrive p net _ =>
      exact ⟨[], [], (List.append_nil _).symm, (List.append_nil _).symm, List.prefix_refl _,
        iff_of_true rfl trivial⟩
  | executeRow =>
      exact ⟨[], [], (List.append_nil _).symm, (List.append_nil _).symm, List.prefix_refl _,
        iff_of_true rfl trivial⟩
  | recv buffer out length result net hcall =>
      obtain ⟨hpart, hfits⟩ := recv_returned hcall
      exact ⟨_, _, rfl, rfl, hpart, hfits⟩
  | other socket buffer out length result net hother _ =>
      exact ⟨[], [], (List.append_nil _).symm, (List.append_nil _).symm, List.prefix_refl _,
        iff_of_true rfl fun hsame => absurd hsame hother⟩

/-- The bytes that calls of `recv` have returned are the payloads they have taken out of the
buffer, and with the unread bytes all that was delivered, exactly in the runs in which every call
finds room for the payload and the flags `TCP_PSH | TCP_ACK`, or no payload. -/
theorem recv_lossless_iff (k : Nat) (start s : Reads) (hfresh : start.Fresh k)
    (hrun : Run (ReadStep k) (fun _ _ => True) start s) :
    s.delivered = s.consumed ++ unreadOf k s.net.sockets ∧
      (s.returned = s.consumed ↔ Run (ReadStep k) (fun s event => event.Fits k s) start s) := by
  constructor
  · refine Run.invariant (Accounted k) hrun ?_ fun _ _ _ h _ hstep => read_step_accounted h hstep
    rw [Accounted, hfresh.delivered, hfresh.consumed, List.nil_append]
  · exact Run.equal_logs_iff Reads.returned Reads.consumed (fun _ _ _ => read_step_logs) hrun
      (hfresh.returned.trans hfresh.consumed.symm)

end Runs

/-- A socket bound to port 7, before anything has arrived. -/
def emptyReads : Reads where
  net := ⟨[⟨1, afInet, 7#16, 0#16, 0#32, 0#8, 0x80#8, 0, fun _ => 0#8⟩],
    fun _ => ⟨0#8, ⟨0, 0#32, 0#32, 0#16, 0#16, fun _ => 0#8, 0, 0#32, 0#32, 0#8⟩⟩, 0⟩
  delivered := []
  consumed := []
  returned := []

theorem empty_reads_fresh : emptyReads.Fresh 1 := ⟨rfl, rfl, rfl⟩

/-- A segment with two bytes for that port. -/
def twoBytes : Packet :=
  ⟨ipProtocolTcp, 1#32, 2#32, 9#16, 7#16, fun i => if i = 0 then 1#8 else 2#8, 2, 0#32, 0#32,
    tcpFlagPsh ||| tcpFlagAck⟩

/-- A call with room for both bytes returns what it took out of the buffer. -/
theorem recv_lossless_two_bytes : ∃ s, Run (ReadStep 1) (fun _ _ => True) emptyReads s ∧
    s.consumed = [1#8, 2#8] ∧ s.returned = s.consumed := by
  have harrive := ReadStep.arrive (k := 1) emptyReads twoBytes _ rfl
  have hfits : Run (ReadStep 1) (fun s event => event.Fits 1 s) emptyReads _ :=
    (Run.refl.snoc (.arrive twoBytes) trivial harrive).snoc (.recv 1 (fun _ => 0#8) 2)
      (fun _ _ fd hfd _ => by
        obtain rfl := Option.some.inj hfd
        exact .inr ⟨rfl, le_rfl⟩)
      (ReadStep.recv _ _ _ 2 _ _ rfl)
  have hrun := hfits.mono fun _ _ _ => trivial
  exact ⟨_, hrun, by decide, (recv_lossless_iff 1 emptyReads _ empty_reads_fresh hrun).2.mpr hfits⟩

/-- A call with room for one byte loses the other: the next call waits for another packet. -/
theorem recv_drops_rest : ∃ s, Run (ReadStep 1) (fun _ _ => True) emptyReads s ∧
    s.consumed = [1#8, 2#8] ∧ s.returned = [1#8] ∧ s.delivered = s.consumed ∧
      recv 1 (fun _ => 0#8) 1 s.net = none := by
  have harrive := ReadStep.arrive (k := 1) emptyReads twoBytes _ rfl
  exact ⟨_, (Run.refl.snoc (.arrive twoBytes) trivial harrive).snoc (.recv 1 (fun _ => 0#8) 1)
    trivial (ReadStep.recv _ _ _ 1 _ _ rfl), by decide, by decide, by decide, rfl⟩

end Sirius.Net
