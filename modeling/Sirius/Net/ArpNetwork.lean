import Sirius.Net.Arp
import Sirius.Net.RoundTrip

/-!
# Address resolution between hosts

Any number of hosts of one segment that run the network stack. The segment may lose, repeat, delay
and reorder frames, and it may hand them to any host, so a host can receive whatever was ever sent.
`handler_ethernet_package_received` enters the sender of every ARP packet and answers every request,
whoever it is for.
-/

namespace Sirius.Net

open Library

/-- The hosts of a segment. -/
abbrev Lan (ι : Type*) := ι → Stack

variable {ι : Type*}

/-- A frame that was sent. -/
def Lan.OnAir (lan : Lan ι) (frame : Frame) : Prop := ∃ j, frame ∈ (lan j).eth.sent

/-- A descriptor of a batch that can arrive: it is skipped, or it carries a frame that was sent. -/
def Lan.Arrives (lan : Lan ι) (prd : Descriptor) : Prop :=
  prd.skipped = true ∨ ∃ buf frame, prd.Carries buf frame ∧ lan.OnAir frame

/-- The number of frames that `handler_ethernet_package_received` goes through. -/
def batchLength (prd : Nat → Descriptor) : Nat := max 1 (prd 0).count.toInt.toNat

/-- What else a host does: its addresses and its cache stay, and it sends no ARP packets. -/
structure Elsewhere (s t : Stack) : Prop where
  mac : t.eth.mac = s.eth.mac
  yourIp : t.eth.yourIp = s.eth.yourIp
  isEnabled : t.eth.isEnabled = s.eth.isEnabled
  arpCache : t.eth.arpCache = s.eth.arpCache
  sent : ∃ frames, t.eth.sent = frames ++ s.eth.sent ∧
    ∀ frame ∈ frames, 14 ≤ frame.buffersize.toNat ∧ htons (half frame.buf 12) ≠ etArp

/-- The events of a segment. -/
inductive LanEvent (ι : Type*)
  | receive (i : ι) (prd : Nat → Descriptor)
  | request (i : ι) (ip : Ip)
  | other (i : ι)

/-- The step of one host. -/
inductive LanStep [DecidableEq ι] : Lan ι → LanEvent ι → Lan ι → Prop
  /-- A batch is received. -/
  | receive {lan : Lan ι} {i : ι} {prd : Nat → Descriptor} {s : Stack}
      (harrives : ∀ k < batchLength prd, lan.Arrives (prd k))
      (h : handlerEthernetPackageReceived (some prd) (lan i) = some s) :
      LanStep lan (.receive i prd) (Function.update lan i s)
  /-- The hardware address of `ip` is asked for, as `init_arp` and `get_hardwere_ethernet` do. -/
  | request {lan : Lan ι} {i : ι} {ip : Ip} :
      LanStep lan (.request i ip)
        (Function.update lan i { lan i with eth := arpRequest ip everyone (lan i).eth })
  | other {lan : Lan ι} {i : ι} {s : Stack} (h : Elsewhere (lan i) s) :
      LanStep lan (.other i) (Function.update lan i s)

/-- The hosts when they are started: the caches are empty and nothing was sent. -/
def Lan.Fresh (lan : Lan ι) : Prop :=
  ∀ i, (lan i).eth.sent = [] ∧ (lan i).eth.arpCache = fun _ => ⟨fun _ => 0#8, noIp⟩

/-- The addresses of the hosts: no IP address starts with 0 or is used twice. -/
structure Addresses (ι : Type*) where
  mac : ι → Mac
  ip : ι → Ip
  start : ∀ i, ip i 0 ≠ 0#8
  distinct : Function.Injective ip

/-- The addresses that the hosts have. -/
def Lan.Has (lan : Lan ι) (hosts : Addresses ι) : Prop :=
  ∀ i, (lan i).eth.mac = hosts.mac i ∧ (lan i).eth.yourIp = hosts.ip i

variable {hosts : Addresses ι} {i j : ι} {s t : Stack} {eth eth' : Ethernet} {frame : Frame}
  {prd : Descriptor} {buf : Bytes}

/-! ### The packets -/

theorem array_fill_same {n : Nat} (m : Bytes) (a : Nat) (src : Fin n → Byte) :
    array (fillArray m a src) a n = src := by
  funext k
  have hk := k.isLt
  unfold array fillArray
  rw [dif_pos (by omega)]
  exact congrArg src (Fin.ext (by simp))

theorem array_congr {m m' : Bytes} {a n : Nat} (h : ∀ k < n, m (a + k) = m' (a + k)) :
    array m a n = array m' a n := funext fun k => h k k.isLt

theorem half_fill_other {n : Nat} {m : Bytes} {a b : Nat} {src : Fin n → Byte}
    (h : b + 2 ≤ a ∨ a + n ≤ b) : half (fillArray m a src) b = half m b :=
  half_congr fun k hk => fill_array_outside (by omega)

/-- The fields of an ARP packet. -/
theorem arp_package_fields (operation : BitVec 16) (dst target : Mac) (ip : Ip) (eth : Ethernet) :
    htons (half (arpPackage operation dst target ip eth) 12) = etArp ∧
      htons (half (arpPackage operation dst target ip eth) 20) = operation ∧
      array (arpPackage operation dst target ip eth) 0 6 = dst ∧
      array (arpPackage operation dst target ip eth) 22 6 = eth.mac ∧
      array (arpPackage operation dst target ip eth) 28 4 = eth.yourIp ∧
      array (arpPackage operation dst target ip eth) 38 4 = ip := by
  unfold arpPackage
  refine ⟨?_, ?_, ?_, ?_, ?_, array_fill_same ..⟩
  · simp (disch := omega) only [half_fill_other, half_put_half_other, half_update_other,
      half_put_half_same, htons_htons]
  · simp (disch := omega) only [half_fill_other, half_put_half_same, htons_htons]
  · refine Eq.trans (array_congr fun k hk => ?_) (array_fill_same (fun _ => 0#8) 0 dst)
    simp only [putHalf]
    simp (disch := omega) only [fill_array_outside, write_half_outside, Function.update_of_ne]
  · refine Eq.trans (array_congr fun k hk => ?_) (array_fill_same (fun _ => 0#8) 22 eth.mac)
    simp (disch := omega) only [fill_array_outside]
    unfold fillArray
    rw [dif_pos (by omega), dif_pos (by omega)]
  · refine Eq.trans (array_congr fun k hk => ?_) (array_fill_same (fun _ => 0#8) 28 eth.yourIp)
    simp (disch := omega) only [fill_array_outside]
    unfold fillArray
    rw [dif_pos (by omega), dif_pos (by omega)]

/-- A frame that host `i` sent: it is no ARP packet, or a request or an answer with the addresses of
the host. -/
structure SentBy (hosts : Addresses ι) (i : ι) (frame : Frame) : Prop where
  size : 14 ≤ frame.buffersize.toNat
  arp : htons (half frame.buf 12) = etArp → 42 ≤ frame.buffersize.toNat ∧
    array frame.buf 22 6 = hosts.mac i ∧ array frame.buf 28 4 = hosts.ip i ∧
      (htons (half frame.buf 20) = 1#16 ∨ htons (half frame.buf 20) = 2#16)

theorem Addresses.nonzero (hosts : Addresses ι) (j : ι) : hosts.ip j ≠ noIp := fun h =>
  hosts.start j (by rw [h]; rfl)

/-- The record of a host. -/
def Addresses.record (hosts : Addresses ι) (j : ι) : ArpSave :=
  ⟨hosts.ip j, hosts.mac j, hosts.nonzero j⟩

/-! ### What a host keeps -/

/-- The frames that host `i` sent have its addresses, and its cache holds records of hosts, each of
them once. -/
structure Truthful (hosts : Addresses ι) (i : ι) (eth : Ethernet) : Prop where
  mac : eth.mac = hosts.mac i
  yourIp : eth.yourIp = hosts.ip i
  sent : ∀ frame ∈ eth.sent, SentBy hosts i frame
  cache : ∃ log, HoldsLog eth.arpCache log ∧ log.Nodup ∧ ∀ save ∈ log, ∃ j, save = hosts.record j

/-- What was sent or learnt stays. -/
structure Progress (eth eth' : Ethernet) : Prop where
  sent : eth.sent <:+ eth'.sent
  lookup : ∀ ip mac, ip ≠ noIp → eth.lookup ip = some mac → eth'.lookup ip = some mac
  isEnabled : eth'.isEnabled = eth.isEnabled

/-- A host goes on. -/
def Moves (hosts : Addresses ι) (i : ι) (eth eth' : Ethernet) : Prop :=
  Truthful hosts i eth → Truthful hosts i eth' ∧ Progress eth eth'

theorem Progress.refl (eth : Ethernet) : Progress eth eth :=
  ⟨List.suffix_refl _, fun _ _ _ h => h, rfl⟩

theorem Progress.trans {eth'' : Ethernet} (h : Progress eth eth') (h' : Progress eth' eth'') :
    Progress eth eth'' where
  sent := h.sent.trans h'.sent
  lookup ip mac hip hmac := h'.lookup ip mac hip (h.lookup ip mac hip hmac)
  isEnabled := h'.isEnabled.trans h.isEnabled

theorem Moves.refl (eth : Ethernet) : Moves hosts i eth eth := fun h => ⟨h, Progress.refl eth⟩

theorem Moves.trans {eth'' : Ethernet} (h : Moves hosts i eth eth')
    (h' : Moves hosts i eth' eth'') : Moves hosts i eth eth'' := by
  intro htrue
  obtain ⟨htrue', hprogress⟩ := h htrue
  obtain ⟨htrue'', hprogress'⟩ := h' htrue'
  exact ⟨htrue'', hprogress.trans hprogress'⟩

/-- The cache and its lookups do not depend on the frames that were sent. -/
theorem Truthful.send (h : Truthful hosts i eth) (frames : List Frame)
    (hframes : ∀ frame ∈ frames, SentBy hosts i frame) (hmac : eth'.mac = eth.mac)
    (hip : eth'.yourIp = eth.yourIp) (henabled : eth'.isEnabled = eth.isEnabled)
    (hcache : eth'.arpCache = eth.arpCache) (hsent : eth'.sent = frames ++ eth.sent) :
    Truthful hosts i eth' ∧ Progress eth eth' := by
  refine ⟨⟨hmac.trans h.mac, hip.trans h.yourIp, fun frame hmem => ?_, by rw [hcache]; exact h.cache⟩,
    by rw [hsent]; exact List.suffix_append .., fun ip mac _ hlookup => ?_, henabled⟩
  · rw [hsent, List.mem_append] at hmem
    exact hmem.elim (hframes frame) (h.sent frame)
  · rw [Ethernet.lookup, hcache]
    exact hlookup

/-- An ARP packet of the host itself. -/
theorem arp_package_sent_by (h : Truthful hosts i eth) {operation : BitVec 16}
    (hop : operation = 1#16 ∨ operation = 2#16) (dst target : Mac) (ip : Ip) :
    SentBy hosts i ⟨BitVec.ofNat 32 42, arpPackage operation dst target ip eth⟩ := by
  obtain ⟨-, hoperation, -, hmac, hip, -⟩ := arp_package_fields operation dst target ip eth
  exact ⟨show 14 ≤ (42#32).toNat by decide, fun _ => ⟨show 42 ≤ (42#32).toNat by decide,
    hmac.trans h.mac, hip.trans h.yourIp, by rw [hoperation]; exact hop⟩⟩

theorem moves_send_arp {operation : BitVec 16} (hop : operation = 1#16 ∨ operation = 2#16)
    (dst target : Mac) (ip : Ip) (eth : Ethernet) :
    Moves hosts i eth (sendEthernetPackage (arpPackage operation dst target ip eth) 42 eth) := by
  intro h
  unfold sendEthernetPackage
  split
  · exact ⟨h, Progress.refl eth⟩
  · refine h.send [⟨BitVec.ofNat 32 42, arpPackage operation dst target ip eth⟩] ?_ rfl rfl rfl rfl rfl
    intro frame hmem
    rw [List.mem_singleton.mp hmem]
    exact arp_package_sent_by h hop dst target ip

theorem moves_elsewhere (h : Elsewhere s t) : Moves hosts i s.eth t.eth := by
  intro htrue
  obtain ⟨frames, hsent, hframes⟩ := h.sent
  refine htrue.send frames (fun frame hmem => ?_) h.mac h.yourIp h.isEnabled h.arpCache hsent
  obtain ⟨hsize, htype⟩ := hframes frame hmem
  exact ⟨hsize, fun harp => absurd harp htype⟩

/-- `arp_save_address` changes the cache only. -/
theorem arp_save_address_same (ip : Ip) (mac : Mac) (eth : Ethernet) :
    (arpSaveAddress ip mac eth).mac = eth.mac ∧ (arpSaveAddress ip mac eth).yourIp = eth.yourIp ∧
      (arpSaveAddress ip mac eth).sent = eth.sent ∧
      (arpSaveAddress ip mac eth).isEnabled = eth.isEnabled := by
  unfold arpSaveAddress
  generalize (List.range 1024).any _ = known
  generalize (List.range 1024).find? _ = free
  cases known with
  | true => exact ⟨rfl, rfl, rfl, rfl⟩
  | false =>
      cases free with
      | none => exact ⟨rfl, rfl, rfl, rfl⟩
      | some i => exact ⟨rfl, rfl, rfl, rfl⟩

theorem starts_nonzero_record (j : ι) : startsNonzero (hosts.record j) = true := by
  unfold startsNonzero
  exact decide_eq_true (hosts.start j)

/-- The frame of a datagram or a segment is no ARP packet. -/
theorem ipv4_send_elsewhere {protocol : Byte} {srcAddress dstAddress length : BitVec 32} {m : Bytes}
    (h : ipv4Send [] m protocol srcAddress dstAddress length s.eth = some eth')
    (hlength : length.toNat + 34 < 2 ^ 32) : Elsewhere s { s with eth := eth' } := by
  simp only [ipv4Send, Option.bind_eq_bind, Option.bind_eq_some_iff, Option.pure_def,
    Option.some.injEq, Prod.exists] at h
  obtain ⟨mac, ready, hready, rfl⟩ := h
  have hsame : ready = s.eth := by
    unfold destinationMac at hready
    split at hready
    · simp only [getHardwereEthernet, Option.map_eq_some_iff, Prod.mk.injEq] at hready
      obtain ⟨_, -, -, hsame⟩ := hready
      exact hsame.symm
    · cases hready
      rfl
  rw [hsame]
  unfold sendEthernetPackage
  split
  · exact ⟨rfl, rfl, rfl, rfl, [], rfl, fun _ h => absurd h List.not_mem_nil⟩
  · refine ⟨rfl, rfl, rfl, rfl, [_], rfl, fun frame hmem => ?_⟩
    rw [List.mem_singleton.mp hmem]
    constructor
    · show 14 ≤ (BitVec.ofNat 32 (length.toNat + 20 + 14)).toNat
      rw [BitVec.toNat_ofNat, Nat.mod_eq_of_lt (by omega)]
      omega
    · dsimp only
      simp (disch := omega) only [ipv4Header, half_put_half_same, half_put_half_other,
        half_put_word_other, half_update_other, htons_htons]
      decide

/-- `udp_send` and `tcp_send` are such traffic while the router is in the cache. -/
theorem transmission_elsewhere {t : Transmission} {m : Bytes} {result : BitVec 32} (hfits : t.Fits)
    (h : t.send [] m s.eth = some (result, eth')) : Elsewhere s { s with eth := eth' } := by
  unfold Transmission.Fits Transmission.headers at hfits
  unfold Transmission.send at h
  cases ht : t.transport with
  | udp =>
      simp only [ht, udpSend, Option.bind_eq_bind, Option.bind_eq_some_iff, Option.pure_def,
        Option.some.injEq, Prod.mk.injEq] at h hfits
      obtain ⟨eth₁, hsend, -, rfl⟩ := h
      refine ipv4_send_elsewhere hsend ?_
      rw [BitVec.toNat_ofNat]
      omega
  | tcp seq ack flags =>
      obtain ⟨-, hend⟩ := tcp_package_bytes m
        ⟨t.srcAddress, t.dstAddress, t.srcPort, t.dstPort, seq, ack, flags, t.data,
          BitVec.ofNat 32 t.length⟩
      simp only [ht, Wire.tcpSend, hend, Option.bind_eq_bind, Option.bind_eq_some_iff,
        Option.pure_def, Option.some.injEq, Prod.mk.injEq] at h hfits
      obtain ⟨eth₁, hsend, -, rfl⟩ := h
      refine ipv4_send_elsewhere hsend ?_
      rw [BitVec.toNat_ofNat, BitVec.toNat_ofNat]
      omega

/-- The record of a host is entered once, and a search that finds a record finds it later. -/
theorem moves_save (j : ι) (eth : Ethernet) :
    Moves hosts i eth (arpSaveAddress (hosts.ip j) (hosts.mac j) eth) := by
  intro h
  obtain ⟨hmac, hip, hsent, henabled⟩ := arp_save_address_same (hosts.ip j) (hosts.mac j) eth
  obtain ⟨log, hlog, hnodup, hrecords⟩ := h.cache
  have hentered := hlog.entered (hosts.record j)
  have hnew : boundedRecord startsNonzero 1024 log (hosts.record j) = log ∨
      (hosts.record j ∉ log ∧
        boundedRecord startsNonzero 1024 log (hosts.record j) = log ++ [hosts.record j]) := by
    unfold boundedRecord
    by_cases hmem : hosts.record j ∈ log
    · exact .inl (if_pos (.inl ⟨starts_nonzero_record j, hmem⟩))
    · by_cases hfull : 1024 ≤ log.length
      · exact .inl (if_pos (.inr hfull))
      · exact .inr ⟨hmem, if_neg (not_or.mpr ⟨fun h => hmem h.2, hfull⟩)⟩
  have hcache : ∃ log', HoldsLog (arpSaveAddress (hosts.ip j) (hosts.mac j) eth).arpCache log' ∧
      log'.Nodup ∧ (∀ save ∈ log', ∃ j, save = hosts.record j) ∧ log <+: log' := by
    refine ⟨_, hentered, ?_⟩
    obtain hold | ⟨hmem, hadd⟩ := hnew
    · rw [hold]
      exact ⟨hnodup, hrecords, List.prefix_refl log⟩
    · rw [hadd]
      refine ⟨List.nodup_append.mpr ⟨hnodup, List.nodup_singleton _, ?_⟩, fun save hsave => ?_,
        List.prefix_append ..⟩
      · rintro a ha b hb rfl
        exact hmem (List.mem_singleton.mp hb ▸ ha)
      · obtain hsave | hsave := List.mem_append.mp hsave
        · exact hrecords save hsave
        · exact ⟨j, List.mem_singleton.mp hsave⟩
  obtain ⟨log', hlog', hnodup', hrecords', rest, rfl⟩ := hcache
  refine ⟨⟨hmac.trans h.mac, hip.trans h.yourIp, by rw [hsent]; exact h.sent, _, hlog', hnodup',
    hrecords'⟩, by rw [hsent], fun ip mac hne hlookup => ?_, henabled⟩
  rw [hlog.lookup hne] at hlookup
  rw [hlog'.lookup hne, List.find?_append]
  cases hfind : log.find? fun save => ip = save.ip with
  | none =>
      rw [hfind] at hlookup
      cases hlookup
  | some save =>
      rw [hfind] at hlookup
      exact hlookup

/-- A host's address is found in the cache with the hardware address of the host, if it is
found. -/
theorem Truthful.lookup (h : Truthful hosts i eth) {ip : Ip} {mac : Mac} (hip : ip ≠ noIp)
    (hlookup : eth.lookup ip = some mac) : ∃ j, ip = hosts.ip j ∧ mac = hosts.mac j := by
  obtain ⟨log, hlog, -, hrecords⟩ := h.cache
  rw [hlog.lookup hip, Option.map_eq_some_iff] at hlookup
  obtain ⟨save, hfind, hmac⟩ := hlookup
  obtain ⟨j, rfl⟩ := hrecords save (List.mem_of_find?_eq_some hfind)
  have hsame := List.find?_some hfind
  rw [decide_eq_true_iff] at hsame
  exact ⟨j, hsame, hmac.symm⟩

/-- Where the records of all hosts fit into the cache, a host that is entered is found. -/
theorem Truthful.learns [Fintype ι] (h : Truthful hosts i eth) (hcard : Fintype.card ι ≤ 1024)
    (j : ι) : (arpSaveAddress (hosts.ip j) (hosts.mac j) eth).lookup (hosts.ip j) =
      some (hosts.mac j) := by
  obtain ⟨log, hlog, hnodup, hrecords⟩ := h.cache
  have hentered := hlog.entered (hosts.record j)
  have hmem : hosts.record j ∈ boundedRecord startsNonzero 1024 log (hosts.record j) := by
    unfold boundedRecord
    by_cases hmem : hosts.record j ∈ log
    · rw [if_pos (.inl ⟨starts_nonzero_record j, hmem⟩)]
      exact hmem
    · have hroom : log.length < 1024 := by
        classical
        have hsub : (hosts.record j :: log).toFinset ⊆ Finset.univ.image hosts.record := by
          intro save hsave
          rw [List.mem_toFinset, List.mem_cons] at hsave
          rw [Finset.mem_image]
          obtain rfl | hsave := hsave
          · exact ⟨j, Finset.mem_univ j, rfl⟩
          · obtain ⟨k, rfl⟩ := hrecords save hsave
            exact ⟨k, Finset.mem_univ k, rfl⟩
        have hle := (Finset.card_le_card hsub).trans Finset.card_image_le
        rw [List.toFinset_card_of_nodup (List.nodup_cons.mpr ⟨hmem, hnodup⟩), List.length_cons,
          Finset.card_univ] at hle
        omega
      rw [if_neg (not_or.mpr ⟨fun h => hmem h.2, Nat.not_le.mpr hroom⟩)]
      exact List.mem_append_right _ (List.mem_singleton_self _)
  obtain ⟨htrue, -⟩ := moves_save j eth h
  have hfound : (arpSaveAddress (hosts.ip j) (hosts.mac j) eth).lookup (hosts.ip j) ≠ none := by
    have hentered : HoldsLog (arpSaveAddress (hosts.ip j) (hosts.mac j) eth).arpCache _ := hentered
    rw [hentered.lookup (hosts.nonzero j), ne_eq, Option.map_eq_none_iff, List.find?_eq_none]
    intro hnone
    exact hnone _ hmem (decide_eq_true rfl)
  obtain ⟨mac, hmac⟩ := Option.ne_none_iff_exists'.mp hfound
  obtain ⟨k, hk, rfl⟩ := htrue.lookup (hosts.nonzero j) hmac
  rw [hmac, hosts.distinct hk]

/-! ### Receiving -/

/-- A received ARP packet has the fields of the packet that was sent. -/
theorem carries_arp (h : prd.Carries buf frame) (hsent : SentBy hosts j frame) :
    half buf 12 = half frame.buf 12 ∧ (htons (half frame.buf 12) = etArp →
      half buf 20 = half frame.buf 20 ∧ array buf 22 6 = hosts.mac j ∧
        array buf 28 4 = hosts.ip j) := by
  have hsize := hsent.size
  refine ⟨half_congr fun k hk => h.bytes _ (by omega), fun harp => ?_⟩
  obtain ⟨hsize', hmac, hip, -⟩ := hsent.arp harp
  rw [← hmac, ← hip]
  exact ⟨half_congr fun k hk => h.bytes _ (by omega), array_congr fun k hk => h.bytes _ (by omega),
    array_congr fun k hk => h.bytes _ (by omega)⟩

/-- An ARP packet of host `j` is handled. -/
theorem moves_handler_arp (hmac : array buf 22 6 = hosts.mac j) (hip : array buf 28 4 = hosts.ip j) :
    Moves hosts i eth (handlerArp buf eth) := by
  unfold handlerArp
  dsimp only
  rw [hmac, hip]
  split
  · exact (moves_save j eth).trans (moves_send_arp (.inr rfl) _ _ _ _)
  · split
    · exact moves_save j eth
    · exact Moves.refl eth

theorem deliver_eth {passed : Option Packet × TcpTable} (h : s.deliver passed = some t) :
    t.eth = s.eth := by
  unfold Stack.deliver at h
  split at h
  · cases h
    rfl
  · simp only [Option.bind_eq_bind, Option.bind_eq_some_iff, Option.pure_def,
      Option.some.injEq] at h
    obtain ⟨_, -, rfl⟩ := h
    rfl

/-- What `handler_ethernet_package_received` does with a frame that is not skipped. -/
theorem handler_frame_carries (h : prd.Carries buf frame) (s : Stack) :
    handlerFrame prd s =
      if htons (half buf 12) = etArp then some { s with eth := handlerArp buf s.eth }
      else if htons (half buf 12) = etIpv4 then s.deliver (handlerIpv4 buf s.net) else some s := by
  have hskip : prd.skipped = false := by
    simp [Descriptor.skipped, h.filled, h.ready, h.size]
  simp only [handlerFrame, hskip, h.filled, Bool.false_eq_true, if_false]

theorem moves_frame (harrives : prd.skipped = true ∨
      ∃ buf frame j, prd.Carries buf frame ∧ SentBy hosts j frame)
    (h : handlerFrame prd s = some t) : Moves hosts i s.eth t.eth := by
  obtain hskip | ⟨buf, frame, j, hcarries, hsent⟩ := harrives
  · rw [handlerFrame, if_pos hskip] at h
    cases h
    exact Moves.refl _
  · obtain ⟨htype, harp⟩ := carries_arp hcarries hsent
    rw [handler_frame_carries hcarries] at h
    split at h
    · rename_i hset
      obtain ⟨-, hmac, hip⟩ := harp (by rw [← htype]; exact hset)
      cases h
      exact moves_handler_arp hmac hip
    · split at h
      · rw [deliver_eth h]
        exact Moves.refl s.eth
      · cases h
        exact Moves.refl _

/-- The batch is received from descriptor `k` on. -/
theorem moves_loop {prd : Nat → Descriptor} {count k : Nat}
    (harrives : ∀ l, k ≤ l → l < k + count → (prd l).skipped = true ∨
      ∃ buf frame j, (prd l).Carries buf frame ∧ SentBy hosts j frame)
    (h : handlerLoop prd count k s = some t) : Moves hosts i s.eth t.eth := by
  induction count generalizing k s with
  | zero =>
      cases h
      exact Moves.refl _
  | succ count ih =>
      simp only [handlerLoop, Option.bind_eq_bind, Option.bind_eq_some_iff] at h
      obtain ⟨u, hfirst, hrest⟩ := h
      exact (moves_frame (harrives k (Nat.le_refl k) (by omega)) hfirst).trans
        (ih (fun l hl hl' => harrives l (by omega) (by omega)) hrest)

/-- An answer of host `j` to a request of host `i`. -/
structure Answers (hosts : Addresses ι) (j i : ι) (frame : Frame) : Prop where
  sentBy : SentBy hosts j frame
  type : htons (half frame.buf 12) = etArp
  operation : htons (half frame.buf 20) = 2#16
  destination : array frame.buf 0 6 = hosts.mac i
  target : array frame.buf 38 4 = hosts.ip i

/-- What host `j` knows after an ARP packet of host `i`: its hardware address, and a request was
answered. -/
def Taught (hosts : Addresses ι) (j i : ι) (operation : BitVec 16) (eth : Ethernet) : Prop :=
  eth.lookup (hosts.ip i) = some (hosts.mac i) ∧
    (operation = 1#16 → eth.isEnabled ≠ 0#8 → ∃ reply ∈ eth.sent, Answers hosts j i reply)

theorem Taught.keeps {operation : BitVec 16} (h : Taught hosts j i operation eth)
    (hprogress : Progress eth eth') : Taught hosts j i operation eth' := by
  refine ⟨hprogress.lookup _ _ (hosts.nonzero i) h.1, fun hop henabled => ?_⟩
  rw [hprogress.isEnabled] at henabled
  obtain ⟨reply, hmem, hreply⟩ := h.2 hop henabled
  exact ⟨reply, hprogress.sent.subset hmem, hreply⟩

/-- A request or an answer teaches. -/
theorem handler_arp_teaches [Fintype ι] (hcard : Fintype.card ι ≤ 1024)
    (h : Truthful hosts j eth) (hmac : array buf 22 6 = hosts.mac i)
    (hip : array buf 28 4 = hosts.ip i)
    (hop : htons (half buf 20) = 1#16 ∨ htons (half buf 20) = 2#16) :
    Taught hosts j i (htons (half buf 20)) (handlerArp buf eth) := by
  have hlearns := h.learns hcard i
  obtain ⟨htrue, -⟩ := moves_save i eth h
  unfold handlerArp
  dsimp only
  rw [hmac, hip]
  obtain hop | hop := hop
  · rw [hop, if_pos rfl]
    obtain ⟨htrue', hprogress⟩ := moves_send_arp (.inr rfl) (hosts.mac i)
      (hosts.mac i) (hosts.ip i) _ htrue
    refine ⟨hprogress.lookup _ _ (hosts.nonzero i) hlearns, fun _ henabled => ?_⟩
    unfold arpReplay at henabled ⊢
    rw [hprogress.isEnabled] at henabled
    rw [send_ethernet_package_enabled _ _ henabled]
    obtain ⟨htype, hoperation, hdst, -, -, htarget⟩ := arp_package_fields 2#16 (hosts.mac i)
      (hosts.mac i) (hosts.ip i) (arpSaveAddress (hosts.ip i) (hosts.mac i) eth)
    exact ⟨_, List.mem_cons_self, arp_package_sent_by htrue (.inr rfl) .., htype, hoperation, hdst, htarget⟩
  · rw [hop, if_neg (by decide), if_pos rfl]
    exact ⟨hlearns, fun h => absurd h (by decide)⟩

theorem loop_teaches [Fintype ι] (hcard : Fintype.card ι ≤ 1024) {prd : Nat → Descriptor}
    {count k l : Nat} (htrue : Truthful hosts j s.eth)
    (harrives : ∀ l, k ≤ l → l < k + count → (prd l).skipped = true ∨
      ∃ buf frame j, (prd l).Carries buf frame ∧ SentBy hosts j frame)
    (hk : k ≤ l) (hl : l < k + count) (hcarries : (prd l).Carries buf frame)
    (hsent : SentBy hosts i frame) (htype : htons (half frame.buf 12) = etArp)
    (h : handlerLoop prd count k s = some t) :
    Taught hosts j i (htons (half frame.buf 20)) t.eth := by
  induction count generalizing k s with
  | zero => omega
  | succ count ih =>
      simp only [handlerLoop, Option.bind_eq_bind, Option.bind_eq_some_iff] at h
      obtain ⟨u, hfirst, hrest⟩ := h
      have hrest' : ∀ l, k + 1 ≤ l → l < k + 1 + count → (prd l).skipped = true ∨
          ∃ buf frame j, (prd l).Carries buf frame ∧ SentBy hosts j frame :=
        fun l hl hl' => harrives l (by omega) (by omega)
      obtain ⟨htrue', -⟩ := moves_frame (harrives k (Nat.le_refl k) (by omega)) hfirst htrue
      by_cases hnow : l = k
      · obtain ⟨hsame, harp⟩ := carries_arp hcarries hsent
        obtain ⟨hsame', hmac, hip⟩ := harp htype
        rw [hnow] at hcarries
        rw [handler_frame_carries hcarries, if_pos (by rw [hsame]; exact htype)] at hfirst
        cases hfirst
        have htaught := handler_arp_teaches hcard htrue hmac hip (by
          rw [hsame']
          exact (hsent.arp htype).2.2.2)
        rw [hsame'] at htaught
        exact htaught.keeps (moves_loop hrest' hrest htrue').2
      · exact ih htrue' hrest' (by omega) (by omega) hrest

/-! ### Runs of the segment -/

variable {lan lan' lan'' : Lan ι}

/-- Every host is truthful. -/
def Lan.Truthful (hosts : Addresses ι) (lan : Lan ι) : Prop :=
  ∀ i, Net.Truthful hosts i (lan i).eth

theorem fresh_truthful (hfresh : lan.Fresh) (hhas : lan.Has hosts) : lan.Truthful hosts := by
  intro i
  obtain ⟨hsent, hcache⟩ := hfresh i
  obtain ⟨hmac, hip⟩ := hhas i
  refine ⟨hmac, hip, by rw [hsent]; exact fun _ h => absurd h List.not_mem_nil, [], ?_,
    List.nodup_nil, fun _ h => absurd h List.not_mem_nil⟩
  rw [hcache]
  exact ⟨Nat.zero_le _, fun i h => absurd h (Nat.not_lt_zero i), fun _ _ _ => rfl⟩

theorem Lan.Truthful.arrives (h : lan.Truthful hosts) (harrives : lan.Arrives prd) :
    prd.skipped = true ∨ ∃ buf frame j, prd.Carries buf frame ∧ SentBy hosts j frame := by
  obtain hskip | ⟨buf, frame, hcarries, j, hmem⟩ := harrives
  · exact .inl hskip
  · exact .inr ⟨buf, frame, j, hcarries, (h j).sent frame hmem⟩

theorem moves_received {prd : Nat → Descriptor} (h : lan.Truthful hosts)
    (harrives : ∀ k < batchLength prd, lan.Arrives (prd k))
    (hreceived : handlerEthernetPackageReceived (some prd) (lan i) = some s) :
    Moves hosts i (lan i).eth s.eth := by
  unfold handlerEthernetPackageReceived at hreceived
  split at hreceived
  · cases hreceived
    exact Moves.refl _
  · exact moves_loop (fun l _ hl => h.arrives (harrives l (by rwa [Nat.zero_add] at hl))) hreceived

variable [DecidableEq ι]

/-- One host moves. -/
theorem Lan.Truthful.update (h : lan.Truthful hosts) (hmoves : Moves hosts i (lan i).eth s.eth) :
    Lan.Truthful hosts (Function.update lan i s) ∧
      ∀ j, Progress (lan j).eth (Function.update lan i s j).eth := by
  obtain ⟨htrue, hprogress⟩ := hmoves (h i)
  refine ⟨fun j => ?_, fun j => ?_⟩
  · by_cases hj : j = i
    · rw [hj, Function.update_self]
      exact htrue
    · rw [Function.update_of_ne hj]
      exact h j
  · by_cases hj : j = i
    · rw [hj, Function.update_self]
      exact hprogress
    · rw [Function.update_of_ne hj]
      exact Progress.refl _

theorem lan_step {e : LanEvent ι} (h : lan.Truthful hosts) (hstep : LanStep lan e lan') :
    lan'.Truthful hosts ∧ ∀ j, Progress (lan j).eth (lan' j).eth := by
  cases hstep with
  | receive harrives hreceived => exact h.update (moves_received h harrives hreceived)
  | @request i ip => exact h.update (moves_send_arp (.inl rfl) everyone (fun _ => 0#8) ip _)
  | other helse => exact h.update (moves_elsewhere helse)

theorem lan_run (h : lan.Truthful hosts) (hrun : Run LanStep (fun _ _ => True) lan lan') :
    lan'.Truthful hosts ∧ ∀ j, Progress (lan j).eth (lan' j).eth := by
  refine Run.invariant (fun lan' => lan'.Truthful hosts ∧ ∀ j, Progress (lan j).eth (lan' j).eth)
    hrun ⟨h, fun j => Progress.refl _⟩ fun u e v ih _ hstep => ?_
  obtain ⟨htrue, hprogress⟩ := lan_step ih.1 hstep
  exact ⟨htrue, fun j => (ih.2 j).trans (hprogress j)⟩

/-- The IP addresses of two hosts. -/
def twoIps (i : Bool) : Ip := ![10#8, 0#8, 0#8, if i then 1#8 else 2#8]

theorem two_ips_start (i : Bool) : twoIps i 0 ≠ 0#8 := by
  simp [twoIps]

theorem two_ips_distinct : Function.Injective twoIps := by
  intro i j h
  have hlast : (if i then (1#8 : BitVec 8) else 2#8) = if j then 1#8 else 2#8 := congrFun h 3
  cases i <;> cases j
  · rfl
  · simp at hlast
  · simp at hlast
  · rfl

/-- Two hosts. -/
def twoAddresses : Addresses Bool where
  mac i := fun _ => if i then 1#8 else 2#8
  ip := twoIps
  start := two_ips_start
  distinct := two_ips_distinct

/-- Two hosts that were just started. -/
def twoHosts : Lan Bool := fun i =>
  { eth := ⟨twoAddresses.mac i, 1#8, 1#8, twoAddresses.ip i, twoAddresses.ip false,
      fun _ => ⟨fun _ => 0#8, noIp⟩, 0#32, []⟩
    net := ⟨fun _ => ⟨0#32, 0#32, 0#16, 0#16, 0#32, 0#32, 0#32, 0#8, 0#8, 0#8⟩, []⟩
    sockets :=
      { sockets := []
        socktReceiveRow := fun _ => ⟨0#8, ⟨0, 0#32, 0#32, 0#16, 0#16, noData, 0, 0#32, 0#32, 0#8⟩⟩
        rowCur := 0 } }

/-- The first host asks for the second one. -/
def firstAsks : Lan Bool := Function.update twoHosts true
  { twoHosts true with
    eth := arpRequest (twoAddresses.ip false) everyone (twoHosts true).eth }

theorem first_asks_run : Run LanStep (fun _ _ => True) twoHosts firstAsks :=
  Run.refl.snoc (.request true (twoAddresses.ip false)) trivial .request

/-- The batch with the question of the first host. -/
def questionBatch : Nat → Descriptor := fun _ =>
  ⟨0#32, 1#32, 42#32,
    some (arpPackage 1#16 everyone (fun _ => 0#8) (twoAddresses.ip false) (twoHosts true).eth)⟩

end Sirius.Net
