import Sirius.Library.Runs
import Sirius.Net.RoundTrip
import Sirius.Net.SocketTransmit

/-!
# Local ports

Ports come from the bitmap of `port.c`, from the counter of `socket_server_transmit` and from the
callers of `bind`, and none of the three looks at the sockets. `PortEvent.takes` tells from the
state before a step which socket will hold which port, and `port_step_holds` and `port_step_keeps`
say that nothing else changes: the ports stay exclusive exactly as long as no other socket holds
the port that is taken. `port_exclusivity` is the result on runs, together with the failure of
every `bind` of the kernel with port 0.
-/

namespace Sirius.Net

open Library

/-- What happens to the ports. -/
inductive PortEvent where
  | socket (domain type protocol : Nat) (buf1 buf2 : Bytes)
  | kernelBind (sd : Nat) (saddr : SockaddrIn) (addressLen : Nat)
  | userBind (sd : Nat) (saddr : SockaddrIn) (addressLen : Nat)
  | connect (sd : Nat) (saddr : SockaddrIn) (addressLen : Nat)
  | sendto (sd : Nat) (message : Bytes) (length : Nat) (destAddr : SockaddrIn)
  | shutdown (sd : Nat)
  | transmit
  | getPort
  | setPort (port : BitVec 16)
  | cleanPort (port : BitVec 16)

/-- The state after an event. `none` is a call that does not return. -/
def PortEvent.run (s : SocketServer) : PortEvent → Option SocketServer
  | .socket domain type protocol buf1 buf2 =>
      (Net.socket domain type protocol buf1 buf2 s).map Prod.snd
  | .kernelBind sd saddr addressLen => (Kernel.bind sd saddr addressLen s).map Prod.snd
  | .userBind sd saddr addressLen => (User.bind sd saddr addressLen s).map Prod.snd
  | .connect sd saddr addressLen => User.connect sd saddr addressLen s
  | .sendto sd message length destAddr => User.sendto sd message length destAddr s
  | .shutdown sd => User.shutdown sd s
  | .transmit => (socketServerTransmit s).map Prod.snd
  | .getPort => some { s with portBitmap := (Net.getPort s.portBitmap).2 }
  | .setPort port => some { s with portBitmap := (Net.setPort port s.portBitmap).2 }
  | .cleanPort port => some { s with portBitmap := Net.cleanPort port s.portBitmap }

/-- A step of the sockets. -/
def PortStep (s : SocketServer) (e : PortEvent) (s' : SocketServer) : Prop := e.run s = some s'

/-- The socket number `i` takes part in the network with the port. -/
def SocketServer.Holds (s : SocketServer) (i : Nat) (port : BitVec 16) : Prop :=
  ∃ fd, s.sockets[i]? = some fd ∧ fd.bound = true ∧ fd.srcPort = port

/-- No two sockets that take part in the network hold the same nonzero port. -/
def SocketServer.Exclusive (s : SocketServer) : Prop :=
  ∀ port, port ≠ 0#16 → ∀ i j, s.Holds i port → s.Holds j port → i = j

/-- The socket that a call of `bind` or `connect` is about, if the address is for it. -/
def SocketServer.target (s : SocketServer) (sd addressLen : Nat)
    (good : KernelSocket → Bool) : Option (Nat × KernelSocket) := do
  let i ← socketAddress sd s
  let fd ← s.sockets[i]?
  if addressLen ≠ 0 ∧ good fd = true then some (i, fd) else none

/-- What `bind` of the kernel asks of the address: the family is that of the socket, and the port is
not 0 and its bit is clear. -/
def KernelSocket.accepted (s : SocketServer) (saddr : SockaddrIn) (fd : KernelSocket) : Bool :=
  saddr.sinFamily = fd.domain ∧ saddr.sinPort ≠ 0#16 ∧
    portBit s.portBitmap (htons saddr.sinPort).toNat = false

/-- The socket that an event gives a port or makes take part with the port it has, and that port.
`set_port` accepts a port other than 0 whose bit is clear, and `socket_server_transmit` chooses for
a socket without a port. -/
def PortEvent.takes (s : SocketServer) : PortEvent → Option (Nat × BitVec 16)
  | .kernelBind sd saddr addressLen =>
      (s.target sd addressLen (KernelSocket.accepted s saddr)).map fun r => (r.1, saddr.sinPort)
  | .userBind sd saddr addressLen =>
      (s.target sd addressLen fun fd => saddr.sinFamily = fd.domain).map
        fun r => (r.1, saddr.sinPort)
  | .connect sd saddr addressLen =>
      (s.target sd addressLen fun fd => fd.pending = false ∧ saddr.sinFamily = afInet).map
        fun r => (r.1, r.2.srcPort)
  | .transmit => do
      let fd ← s.sockets[s.currentSaddr]?
      if fd.bound ∧ fd.pending ∧ fd.known ∧ fd.srcPort = 0#16 then
        some (s.currentSaddr, htons (nextPort s.port))
      else none
  | _ => none

/-- No other socket holds the port that the event gives out. -/
def PortEvent.TakesFree (s : SocketServer) (e : PortEvent) : Prop :=
  ∀ i port, e.takes s = some (i, port) → port ≠ 0#16 → ∀ j, s.Holds j port → j = i

/-- The sockets after `ethernet_port_setup` and `init_socket`. -/
def SocketServer.start (s : SocketServer) (buf1 buf2 : Bytes) : SocketServer :=
  (initSocket afLocal sockStream 0 buf1 buf2 (ethernetPortSetup s)).2

/-- The runs in which no event gives out a port that another socket holds. -/
def PortRun (s s' : SocketServer) : Prop := Run PortStep (fun s e => e.TakesFree s) s s'

variable {s s' : SocketServer} {e : PortEvent} {fd fd' : KernelSocket} {i j : Nat}
  {port p : BitVec 16}

/-! ### Ports of sockets -/

theorem htons_eq_zero_iff (nb : BitVec 16) : htons nb = 0#16 ↔ nb = 0#16 := by
  constructor
  · intro h
    rw [← htons_htons nb, h]
    rfl
  · rintro rfl
    rfl

/-- Who holds what after one socket was written back. -/
theorem holds_store :
    (s.store i fd).Holds j p ↔
      if j = i then i < s.sockets.length ∧ fd.bound = true ∧ fd.srcPort = p else s.Holds j p := by
  rw [SocketServer.Holds, SocketServer.store, List.getElem?_set]
  by_cases hj : j = i
  · subst hj
    by_cases hlt : j < s.sockets.length <;> simp [hlt]
  · rw [if_neg (Ne.symm hj), if_neg hj, SocketServer.Holds]

/-- A socket that is written back and takes part. -/
theorem store_takes (hget : s.sockets[i]? = some fd) (hbound : fd'.bound = true) :
    (s.store i fd').Holds j p ↔ if j = i then fd'.srcPort = p else s.Holds j p := by
  obtain ⟨hlt, -⟩ := List.getElem?_eq_some_iff.mp hget
  simp only [holds_store, hlt, hbound, true_and]

/-- A socket that is written back with the part and the port it had, or without a part. -/
theorem store_keeps (hget : s.sockets[i]? = some fd)
    (hsame : fd'.bound = true → fd.bound = true ∧ fd'.srcPort = fd.srcPort)
    (hholds : (s.store i fd').Holds j p) : s.Holds j p := by
  rw [holds_store] at hholds
  by_cases hj : j = i
  · rw [if_pos hj] at hholds
    obtain ⟨-, hbound, rfl⟩ := hholds
    obtain ⟨hold, hport⟩ := hsame hbound
    exact ⟨fd, hj ▸ hget, hold, hport.symm⟩
  · rwa [if_neg hj] at hholds

/-! ### What the calls do -/

theorem target_eq_some {sd addressLen : Nat} {good : KernelSocket → Bool} :
    s.target sd addressLen good = some (i, fd) ↔
      socketAddress sd s = some i ∧ s.sockets[i]? = some fd ∧ addressLen ≠ 0 ∧ good fd = true := by
  simp only [SocketServer.target, Option.bind_eq_bind, Option.bind_eq_some_iff]
  constructor
  · rintro ⟨i', hi, fd', hfd, hif⟩
    split at hif
    · rename_i hgood
      cases hif
      exact ⟨hi, hfd, hgood.1, hgood.2⟩
    · cases hif
  · rintro ⟨hi, hfd, hlen, hgood⟩
    exact ⟨i, hi, fd, hfd, if_pos ⟨hlen, hgood⟩⟩

/-- `bind` of the user library gives the socket any port, or it changes nothing. -/
theorem user_bind_cases {sd addressLen : Nat} {saddr : SockaddrIn} {r : Int}
    (h : User.bind sd saddr addressLen s = some (r, s')) :
    (∃ i fd, s.target sd addressLen (fun fd => saddr.sinFamily = fd.domain) = some (i, fd) ∧
        s' = s.store i { fd with
          srcPort := saddr.sinPort, srcIp := saddr.sAddr, flags := fd.flags ||| 0x80#8 }) ∨
      (∀ i fd, s.target sd addressLen (fun fd => saddr.sinFamily = fd.domain) ≠ some (i, fd)) ∧
        s' = s := by
  simp only [ne_eq, target_eq_some]
  unfold User.bind at h
  by_cases hlen : addressLen = 0
  · rw [if_pos hlen] at h
    cases h
    exact .inr ⟨fun i fd htarget => htarget.2.2.1 hlen, rfl⟩
  · rw [if_neg hlen] at h
    simp only [Option.bind_eq_bind, Option.bind_eq_some_iff] at h
    obtain ⟨i, hi, fd, hfd, h⟩ := h
    by_cases hfamily : saddr.sinFamily = fd.domain
    · rw [if_neg (not_not.mpr hfamily)] at h
      cases h
      exact .inl ⟨i, fd, ⟨hi, hfd, hlen, decide_eq_true hfamily⟩, rfl⟩
    · rw [if_pos hfamily] at h
      cases h
      refine .inr ⟨fun j other htarget => hfamily ?_, rfl⟩
      obtain ⟨hj, hother, -, hgood⟩ := htarget
      cases hi.symm.trans hj
      cases hfd.symm.trans hother
      exact of_decide_eq_true hgood

/-- `set_port` returns 0 for port 0, whether its bit was set or not. -/
theorem set_port_eq_zero_iff (bmp : Bytes) :
    (setPort port bmp).1 = 0#16 ↔ port = 0#16 ∨ portBit bmp port.toNat = true := by
  rw [setPort]
  by_cases hbit : portBit bmp port.toNat = true
  · simp [hbit]
  · simp [hbit]

/-- `bind` of the kernel gives the socket a port that is accepted, or it changes the bitmap at
most. -/
theorem kernel_bind_cases {sd addressLen : Nat} {saddr : SockaddrIn} {r : Int}
    (h : Kernel.bind sd saddr addressLen s = some (r, s')) :
    (∃ i fd ip bmp, s.target sd addressLen (KernelSocket.accepted s saddr) = some (i, fd) ∧ r = 0 ∧
        s' = SocketServer.store { s with portBitmap := bmp } i { fd with
          srcPort := saddr.sinPort, srcIp := ip, flags := fd.flags ||| 0x80#8 }) ∨
      (∀ i fd, s.target sd addressLen (KernelSocket.accepted s saddr) ≠ some (i, fd)) ∧ r = -1 ∧
        ∃ bmp, s' = { s with portBitmap := bmp } := by
  simp only [ne_eq, target_eq_some]
  unfold Kernel.bind at h
  by_cases hlen : addressLen = 0
  · rw [if_pos hlen] at h
    cases h
    exact .inr ⟨fun i fd htarget => htarget.2.2.1 hlen, rfl, _, rfl⟩
  · rw [if_neg hlen] at h
    simp only [Option.bind_eq_bind, Option.bind_eq_some_iff] at h
    obtain ⟨i, hi, fd, hfd, h⟩ := h
    have honly : ∀ j other, socketAddress sd s = some j → s.sockets[j]? = some other →
        other = fd := fun j other hj hother => by
      cases hi.symm.trans hj
      exact Option.some.inj (hother.symm.trans hfd)
    by_cases hfamily : saddr.sinFamily = fd.domain
    · rw [if_neg (not_not.mpr hfamily)] at h
      -- port 0 and a port whose bit is set are refused alike
      by_cases hset : (setPort (htons saddr.sinPort) s.portBitmap).1 = 0#16
      · rw [if_pos hset] at h
        cases h
        refine .inr ⟨fun j other htarget => ?_, rfl, _, rfl⟩
        obtain ⟨hj, hother, -, hgood⟩ := htarget
        obtain ⟨-, hport, hbit⟩ := of_decide_eq_true hgood
        rw [set_port_eq_zero_iff, htons_eq_zero_iff, hbit] at hset
        exact hset.elim hport Bool.false_ne_true
      · rw [if_neg hset] at h
        rw [set_port_eq_zero_iff, htons_eq_zero_iff] at hset
        obtain ⟨hport, hbit⟩ := not_or.mp hset
        simp only [hport, if_false] at h
        cases h
        exact .inl ⟨i, fd, _, _, ⟨hi, hfd, hlen,
          decide_eq_true ⟨hfamily, hport, Bool.not_eq_true _ ▸ hbit⟩⟩, rfl, rfl⟩
    · rw [if_pos hfamily] at h
      cases h
      refine .inr ⟨fun j other htarget => hfamily ?_, rfl, _, rfl⟩
      obtain ⟨hj, hother, -, hgood⟩ := htarget
      rw [← honly j other hj hother]
      exact (of_decide_eq_true hgood).1

/-- `connect` makes the socket take part with the port it has, or it changes neither. -/
theorem connect_cases {sd addressLen : Nat} {saddr : SockaddrIn}
    (h : User.connect sd saddr addressLen s = some s') :
    (∃ i fd fd', s.target sd addressLen
          (fun fd => fd.pending = false ∧ saddr.sinFamily = afInet) = some (i, fd) ∧
        fd'.bound = true ∧ fd'.srcPort = fd.srcPort ∧ s' = s.store i fd') ∨
      (∀ i fd, s.target sd addressLen
          (fun fd => fd.pending = false ∧ saddr.sinFamily = afInet) ≠ some (i, fd)) ∧
        (s' = s ∨ ∃ i fd fd', s.sockets[i]? = some fd ∧ fd'.flags = fd.flags ∧
          fd'.srcPort = fd.srcPort ∧ s' = s.store i fd') := by
  simp only [ne_eq, target_eq_some]
  unfold User.connect at h
  by_cases hlen : addressLen = 0
  · rw [if_pos hlen] at h
    cases h
    exact .inr ⟨fun i fd htarget => htarget.2.2.1 hlen, .inl rfl⟩
  · rw [if_neg hlen] at h
    cases hi : socketAddress sd s with
    | none =>
        rw [hi] at h
        cases h
        exact .inr ⟨fun i fd htarget => (nomatch htarget.1), .inl rfl⟩
    | some i =>
        rw [hi] at h
        simp only [Option.bind_eq_bind, Option.bind_eq_some_iff] at h
        obtain ⟨fd, hfd, h⟩ := h
        -- a socket with a request pending waits
        by_cases hpending : fd.pending = true
        · rw [if_pos hpending] at h
          cases h
        · rw [if_neg hpending] at h
          by_cases hfamily : saddr.sinFamily = afInet
          · rw [if_neg (not_not.mpr hfamily)] at h
            cases h
            refine .inl ⟨i, fd, _, ⟨rfl, hfd, hlen,
              decide_eq_true ⟨Bool.not_eq_true _ ▸ hpending, hfamily⟩⟩, ?_, ?_, rfl⟩
            · refine decide_eq_true ?_
              rw [bound_request]
              exact bound_or fd.flags
            · rfl
          · rw [if_pos hfamily] at h
            cases h
            exact .inr ⟨fun j other htarget => hfamily (of_decide_eq_true htarget.2.2.2).2,
              .inr ⟨i, fd, { fd with destPort := saddr.sinPort, destIp := saddr.sAddr }, hfd, rfl,
                rfl, rfl⟩⟩

/-- A new socket holds no port. -/
theorem socket_holds {domain type protocol : Nat} {buf1 buf2 : Bytes} {r : Int}
    (h : Net.socket domain type protocol buf1 buf2 s = some (r, s')) (hholds : s'.Holds j p) :
    s.Holds j p := by
  unfold Net.socket at h
  split at h
  · cases h
    exact hholds
  split at h
  · cases h
    exact hholds
  split at h
  · cases h
  · cases h
    obtain ⟨fd, hget, hbound, hport⟩ := hholds
    rcases Nat.lt_or_ge j s.sockets.length with hold | hnew
    · rw [List.getElem?_append_left hold] at hget
      exact ⟨fd, hget, hbound, hport⟩
    · rw [List.getElem?_append_right hnew, List.getElem?_singleton] at hget
      split at hget
      · cases hget
        rw [new_socket_bound] at hbound
        cases hbound
      · cases hget

/-- `sendto` keeps the port of its socket and sets the flag 1. -/
theorem sendto_cases {sd length : Nat} {message : Bytes} {destAddr : SockaddrIn}
    (h : User.sendto sd message length destAddr s = some s') :
    s' = s ∨ ∃ i fd fd', s.sockets[i]? = some fd ∧ fd'.flags = fd.flags ||| 1#8 ∧
      fd'.srcPort = fd.srcPort ∧ s' = s.store i fd' := by
  unfold User.sendto at h
  split at h
  · exact .inl (Option.some.inj h).symm
  · rename_i i _
    simp only [Option.bind_eq_bind, Option.bind_eq_some_iff] at h
    obtain ⟨fd, hget, h⟩ := h
    split at h
    · exact .inl (Option.some.inj h).symm
    split at h
    · cases h
    · obtain rfl := Option.some.inj h
      refine .inr ⟨i, fd, _, hget, ?_, ?_, rfl⟩ <;> rfl

/-- `shutdown` clears the flags of its socket. -/
theorem shutdown_cases {sd : Nat} (h : User.shutdown sd s = some s') :
    s' = s ∨ ∃ i fd fd', s.sockets[i]? = some fd ∧ fd'.flags = 0#8 ∧ s' = s.store i fd' := by
  unfold User.shutdown at h
  split at h
  · exact .inl (Option.some.inj h).symm
  · rename_i i _
    simp only [Option.bind_eq_bind, Option.bind_eq_some_iff] at h
    obtain ⟨fd, hget, h⟩ := h
    split at h
    · exact .inl (Option.some.inj h).symm
    split at h
    · cases h
    · obtain rfl := Option.some.inj h
      exact .inr ⟨i, fd, { fd with connect := 0#8, flags := 0#8 }, hget, rfl, rfl⟩

/-- `socket_server_transmit` assigns a port to a socket without one, and changes neither the port
nor the part of any other. -/
theorem transmit_cases {sent : Option Sent} (h : socketServerTransmit s = some (sent, s')) :
    ∃ fd fd', s.sockets[s.currentSaddr]? = some fd ∧
      s'.sockets = (s.store s.currentSaddr fd').sockets ∧
      (fd'.bound = fd.bound) ∧
      fd'.srcPort = if fd.bound ∧ fd.pending ∧ fd.known ∧ fd.srcPort = 0#16 then
        htons (nextPort s.port) else fd.srcPort := by
  simp only [socketServerTransmit, Option.bind_eq_bind, Option.bind_eq_some_iff,
    Option.some.injEq, Prod.mk.injEq] at h
  obtain ⟨fd, hfd, -, rfl⟩ := h
  refine ⟨fd, _, hfd, rfl, ?_, ?_⟩
  · rw [KernelSocket.bound, transmit_socket_flags]
    by_cases hasks : (fd.bound && fd.pending) = true
    · rw [if_pos hasks, bound_sent, KernelSocket.bound]
    · rw [if_neg hasks, KernelSocket.bound]
  · rw [transmit_socket_port]
    simp only [Bool.and_eq_true, and_assoc, htons_eq_zero_iff]

/-! ### One step -/

/-- An event that takes a port: its socket holds that port, and the others what they held. -/
theorem port_step_holds (hstep : PortStep s e s') (htakes : e.takes s = some (i, port))
    (j : Nat) (p : BitVec 16) :
    s'.Holds j p ↔ if j = i then port = p else s.Holds j p := by
  cases e with
  | kernelBind sd saddr addressLen =>
      obtain ⟨⟨i', fd⟩, htarget, hpair⟩ := Option.map_eq_some_iff.mp htakes
      obtain ⟨rfl, rfl⟩ := Prod.mk.inj hpair
      obtain ⟨⟨r, s''⟩, hbind, rfl⟩ := Option.map_eq_some_iff.mp hstep
      rcases kernel_bind_cases hbind with ⟨i, fd', ip, bmp, htarget', -, rfl⟩ | ⟨hnone, -⟩
      · cases htarget.symm.trans htarget'
        obtain ⟨-, hget, -⟩ := target_eq_some.mp htarget
        refine (store_takes (s := { s with portBitmap := bmp }) hget ?_).trans Iff.rfl
        exact decide_eq_true (bound_or fd.flags)
      · exact absurd htarget (hnone i' fd)
  | userBind sd saddr addressLen =>
      obtain ⟨⟨i', fd⟩, htarget, hpair⟩ := Option.map_eq_some_iff.mp htakes
      obtain ⟨rfl, rfl⟩ := Prod.mk.inj hpair
      obtain ⟨⟨r, s''⟩, hbind, rfl⟩ := Option.map_eq_some_iff.mp hstep
      rcases user_bind_cases hbind with ⟨i, fd', htarget', rfl⟩ | ⟨hnone, -⟩
      · cases htarget.symm.trans htarget'
        obtain ⟨-, hget, -⟩ := target_eq_some.mp htarget
        exact store_takes hget (decide_eq_true (bound_or fd.flags))
      · exact absurd htarget (hnone i' fd)
  | connect sd saddr addressLen =>
      obtain ⟨⟨i', fd⟩, htarget, hpair⟩ := Option.map_eq_some_iff.mp htakes
      obtain ⟨rfl, rfl⟩ := Prod.mk.inj hpair
      rcases connect_cases hstep with ⟨i, fd', new, htarget', hbound, hport, rfl⟩ | ⟨hnone, -⟩
      · cases htarget.symm.trans htarget'
        obtain ⟨-, hget, -⟩ := target_eq_some.mp htarget
        rw [store_takes hget hbound, hport]
      · exact absurd htarget (hnone i' fd)
  | transmit =>
      obtain ⟨⟨sent, s''⟩, htransmit, rfl⟩ := Option.map_eq_some_iff.mp hstep
      obtain ⟨fd, fd', hget, hsockets, hbound, hport⟩ := transmit_cases htransmit
      simp only [PortEvent.takes, hget, Option.bind_eq_bind, Option.bind_some] at htakes
      split at htakes
      · rename_i hassigns
        cases htakes
        rw [if_pos hassigns] at hport
        have hstore := store_takes (j := j) (p := p) hget (hbound.trans hassigns.1)
        rw [hport] at hstore
        rw [← hstore, SocketServer.Holds, hsockets, SocketServer.Holds]
      · cases htakes
  -- the other events take no port
  | socket | sendto | shutdown | getPort | setPort | cleanPort => cases htakes

/-- Any other event leaves the sockets with the ports they held, or with none. -/
theorem port_step_keeps (hstep : PortStep s e s') (htakes : e.takes s = none)
    (hholds : s'.Holds j p) : s.Holds j p := by
  cases e with
  | socket domain type protocol buf1 buf2 =>
      obtain ⟨⟨r, s''⟩, hsocket, rfl⟩ := Option.map_eq_some_iff.mp hstep
      exact socket_holds hsocket hholds
  | kernelBind sd saddr addressLen =>
      have htarget := Option.map_eq_none_iff.mp htakes
      obtain ⟨⟨r, s''⟩, hbind, rfl⟩ := Option.map_eq_some_iff.mp hstep
      rcases kernel_bind_cases hbind with ⟨i, fd, ip, bmp, htarget', -⟩ | ⟨-, -, bmp, rfl⟩
      · cases htarget.symm.trans htarget'
      · exact hholds
  | userBind sd saddr addressLen =>
      have htarget := Option.map_eq_none_iff.mp htakes
      obtain ⟨⟨r, s''⟩, hbind, rfl⟩ := Option.map_eq_some_iff.mp hstep
      rcases user_bind_cases hbind with ⟨i, fd, htarget', -⟩ | ⟨-, rfl⟩
      · cases htarget.symm.trans htarget'
      · exact hholds
  | connect sd saddr addressLen =>
      have htarget := Option.map_eq_none_iff.mp htakes
      rcases connect_cases hstep with ⟨i, fd, fd', htarget', -⟩ | ⟨-, hkept⟩
      · cases htarget.symm.trans htarget'
      · rcases hkept with rfl | ⟨i, fd, fd', hget, hflags, hport, rfl⟩
        · exact hholds
        · refine store_keeps hget (fun hbound => ⟨?_, hport⟩) hholds
          rwa [KernelSocket.bound, hflags] at hbound
  | sendto sd message length destAddr =>
      rcases sendto_cases hstep with rfl | ⟨i, fd, fd', hget, hflags, hport, rfl⟩
      · exact hholds
      · refine store_keeps hget (fun hbound => ⟨?_, hport⟩) hholds
        rwa [KernelSocket.bound, hflags, bound_request] at hbound
  | shutdown sd =>
      rcases shutdown_cases hstep with rfl | ⟨i, fd, fd', hget, hflags, rfl⟩
      · exact hholds
      · refine store_keeps hget (fun hbound => ?_) hholds
        rw [KernelSocket.bound, hflags] at hbound
        exact absurd hbound (by decide)
  | transmit =>
      obtain ⟨⟨sent, s''⟩, htransmit, rfl⟩ := Option.map_eq_some_iff.mp hstep
      obtain ⟨fd, fd', hget, hsockets, hbound, hport⟩ := transmit_cases htransmit
      simp only [PortEvent.takes, hget, Option.bind_eq_bind, Option.bind_some] at htakes
      split at htakes
      · cases htakes
      · rename_i hkept
        rw [if_neg hkept] at hport
        rw [SocketServer.Holds, hsockets, ← SocketServer.Holds] at hholds
        exact store_keeps hget (fun hnew => ⟨hbound.symm.trans hnew, hport⟩) hholds
  | getPort | setPort | cleanPort =>
      obtain rfl := Option.some.inj hstep
      exact hholds

/-- One step keeps the ports exclusive exactly when it gives out no port of another socket. -/
theorem port_step_exclusive_iff (h : s.Exclusive) (hstep : PortStep s e s') :
    s'.Exclusive ↔ e.TakesFree s := by
  cases htakes : e.takes s with
  | none =>
      refine ⟨fun _ i port htakes' => ?_, fun _ port hport i j hi hj => ?_⟩
      · cases htakes.symm.trans htakes'
      · exact h port hport i j (port_step_keeps hstep htakes hi) (port_step_keeps hstep htakes hj)
  | some taken =>
      obtain ⟨i, port⟩ := taken
      have hholds := port_step_holds hstep htakes
      constructor
      · intro hexclusive i' port' htakes' hport j hj
        cases htakes.symm.trans htakes'
        by_contra hne
        refine hne (hexclusive port hport j i ?_ ?_)
        · rwa [hholds, if_neg hne]
        · rw [hholds, if_pos rfl]
      · intro hfree p hp j k hj hk
        rw [hholds] at hj hk
        by_cases hji : j = i <;> by_cases hki : k = i
        · rw [hji, hki]
        · rw [if_pos hji] at hj
          rw [if_neg hki] at hk
          subst hj
          exact absurd (hfree i port htakes hp k hk) hki
        · rw [if_neg hji] at hj
          rw [if_pos hki] at hk
          subst hk
          exact absurd (hfree i port htakes hp j hj) hji
        · rw [if_neg hji] at hj
          rw [if_neg hki] at hk
          exact h p hp j k hj hk

/-! ### Runs -/

theorem exclusive_start (s : SocketServer) (buf1 buf2 : Bytes) : (s.start buf1 buf2).Exclusive := by
  intro port _ i j hi _
  obtain ⟨fd, hget, hbound, -⟩ := hi
  have hsockets : (s.start buf1 buf2).sockets = [newSocket 1 afLocal sockStream 0 buf1 buf2] := rfl
  rw [hsockets, List.getElem?_singleton] at hget
  split at hget
  · cases hget
    rw [new_socket_bound] at hbound
    cases hbound
  · cases hget

theorem port_run_exclusive {buf1 buf2 : Bytes} {s₀ : SocketServer}
    (hrun : PortRun (s₀.start buf1 buf2) s) : s.Exclusive :=
  Run.invariant _ hrun (exclusive_start s₀ buf1 buf2) fun _ _ _ h hfree hstep =>
    (port_step_exclusive_iff h hstep).mpr hfree

/-- The bitmap has a free port. -/
def SocketServer.FreePort (s : SocketServer) : Prop :=
  ∃ port : BitVec 16, port ≠ 0#16 ∧ portBit s.portBitmap port.toNat = false

/-- `bind` of the kernel succeeds and gives the socket a port that was free. -/
def SocketServer.BindsFree (s : SocketServer) (sd : Nat) (saddr : SockaddrIn) (addressLen : Nat) :
    Prop :=
  ∃ s' i port, Kernel.bind sd saddr addressLen s = some (0, s') ∧ port ≠ 0#16 ∧
    portBit s.portBitmap port.toNat = false ∧ s'.Holds i (htons port)

/-- `bind` of the kernel never succeeds with port 0, because `set_port` returns 0 for it. -/
theorem kernel_bind_zero {sd addressLen : Nat} {saddr : SockaddrIn} {r : Int}
    (hport : saddr.sinPort = 0#16) (h : Kernel.bind sd saddr addressLen s = some (r, s')) :
    r = -1 := by
  rcases kernel_bind_cases h with ⟨i, fd, ip, bmp, htarget, -⟩ | ⟨-, hr, -⟩
  · obtain ⟨-, -, -, hgood⟩ := target_eq_some.mp htarget
    exact absurd hport (of_decide_eq_true hgood).2.1
  · exact hr

/-- In every state of every run in which no event gives out a port that another socket holds, the
ports are exclusive, and the next event keeps them so exactly when it gives out no such port. And
`bind` of the kernel with port 0 succeeds with a free port whenever there is one, exactly when there
is none. -/
theorem port_exclusivity (s₀ : SocketServer) (buf1 buf2 : Bytes) :
    (∀ s, PortRun (s₀.start buf1 buf2) s → s.Exclusive ∧
      ∀ e s', PortStep s e s' → (s'.Exclusive ↔ e.TakesFree s)) ∧
    ∀ (s : SocketServer) sd saddr addressLen, SockaddrIn.sinPort saddr = 0#16 →
      ((s.FreePort → s.BindsFree sd saddr addressLen) ↔ ¬ s.FreePort) := by
  refine ⟨fun s hrun => ?_, fun s sd saddr addressLen hport => ?_⟩
  · have h := port_run_exclusive hrun
    exact ⟨h, fun e s' hstep => port_step_exclusive_iff h hstep⟩
  · refine ⟨fun hbinds hfree => ?_, fun hnone hfree => absurd hfree hnone⟩
    obtain ⟨s', i, port, hbind, -⟩ := hbinds hfree
    exact absurd (kernel_bind_zero hport hbind) (by decide)

/-- The sockets of a machine with clear memory. -/
def SocketServer.clear : SocketServer :=
  ⟨[], 0, 0, 0#16, fun _ => 0#8, 0#32, 0x0100007f#32⟩

/-- Two sockets are bound to port 53 with `bind` of the user library, and `bind` of the kernel with
port 0 fails although port 1 is free. -/
theorem two_sockets_share_port :
    (∃ s, Run PortStep (fun _ _ => True) (SocketServer.clear.start (fun _ => 0#8) fun _ => 0#8) s ∧
      s.Holds 0 (htons 53#16) ∧ s.Holds 1 (htons 53#16) ∧ ¬ s.Exclusive) ∧
    portBit (SocketServer.clear.start (fun _ => 0#8) fun _ => 0#8).portBitmap 1 = false ∧
    (Kernel.bind 1 ⟨afLocal, 0#16, 0#32⟩ 8
      (SocketServer.clear.start (fun _ => 0#8) fun _ => 0#8)).map Prod.fst = some (-1) := by
  have hstart : Run PortStep (fun _ _ => True)
      (SocketServer.clear.start (fun _ => 0#8) fun _ => 0#8) _ := Run.refl
  have hsocket := hstart.snoc (.socket afInet sockDgram 17 (fun _ => 0#8) fun _ => 0#8) trivial rfl
  have hfirst := hsocket.snoc (.userBind 1 ⟨afLocal, htons 53#16, 0#32⟩ 8) trivial rfl
  have hsecond := hfirst.snoc (.userBind 2 ⟨afInet, htons 53#16, 0#32⟩ 8) trivial rfl
  refine ⟨⟨_, hsecond, ⟨_, rfl, rfl, rfl⟩, ⟨_, rfl, rfl, rfl⟩, fun hexclusive => ?_⟩, rfl, rfl⟩
  exact absurd (hexclusive (htons 53#16) (by decide) 0 1 ⟨_, rfl, rfl, rfl⟩ ⟨_, rfl, rfl, rfl⟩)
    Nat.zero_ne_one

end Sirius.Net
