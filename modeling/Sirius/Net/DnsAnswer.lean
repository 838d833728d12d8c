import Mathlib.Data.List.TakeWhile
import Mathlib.Tactic
import Sirius.Net.DnsQuestion
import Sirius.Net.Socket
import Sirius.Stdio.Format

/-!
# The answer to a DNS query

Behind its query `get_ip_from_name` receives at most 4096 bytes of the response, and takes the four
bytes that were received last for the address it looked for. It looks at the number of answers, but
at none of the records. `Response` is a message as servers send it, with any number of records in
its three sections and names that end in pointers.
-/

namespace Sirius.Net

open Library Stdio.User

/-! ### Messages -/

/-- A name in a message: labels, and a pointer to the rest of the name or the zero byte. -/
structure MessageName where
  labels : List (List Byte)
  pointer : Option (BitVec 14)

/-- `0xc000` marks a pointer. -/
def MessageName.bytes (name : MessageName) : List Byte :=
  labelBytes name.labels ++ match name.pointer with
    | none => [0#8]
    | some offset => netHalf (0xc000#16 ||| offset.setWidth 16)

/-- A resource record. -/
structure ResourceRecord where
  name : MessageName
  type : BitVec 16
  netClass : BitVec 16
  ttl : BitVec 32
  rdata : List Byte

def ResourceRecord.bytes (record : ResourceRecord) : List Byte :=
  record.name.bytes ++ (netHalf record.type ++ (netHalf record.netClass ++
    (netHalf ((record.ttl >>> 16).setWidth 16) ++ (netHalf (record.ttl.setWidth 16) ++
      (netHalf (BitVec.ofNat 16 record.rdata.length) ++ record.rdata)))))

/-- An A record: the type and the class are 1, and the data is an address. -/
def ResourceRecord.IsA (record : ResourceRecord) : Prop :=
  record.type = 1#16 ∧ record.netClass = 1#16 ∧ record.rdata.length = 4

/-- A message with one question. The counts of the header are 16-bit fields. -/
structure Response where
  id : BitVec 16
  flags : BitVec 16
  name : MessageName
  queryType : BitVec 16
  queryClass : BitVec 16
  answers : List ResourceRecord
  authority : List ResourceRecord
  additional : List ResourceRecord
  counted : answers.length < 2 ^ 16 ∧ authority.length < 2 ^ 16 ∧ additional.length < 2 ^ 16

/-- The records in the order of the message. -/
def Response.records (r : Response) : List ResourceRecord :=
  r.answers ++ r.authority ++ r.additional

/-- The header up to the number of questions. -/
def Response.opening (r : Response) : List Byte := netHalf r.id ++ netHalf r.flags ++ netHalf 1#16

/-- The header behind the number of answers, and the question. -/
def Response.closing (r : Response) : List Byte :=
  netHalf (BitVec.ofNat 16 r.authority.length) ++ netHalf (BitVec.ofNat 16 r.additional.length) ++
    (r.name.bytes ++ netHalf r.queryType ++ netHalf r.queryClass)

/-- The header and the question. -/
def Response.head (r : Response) : List Byte :=
  r.opening ++ (netHalf (BitVec.ofNat 16 r.answers.length) ++ r.closing)

def Response.bytes (r : Response) : List Byte :=
  r.head ++ r.records.flatMap ResourceRecord.bytes

/-- The labels can be read, and a pointer leads to an earlier place of the message, where the name
is at `offset`. -/
def MessageName.WellFormed (offset : Nat) (name : MessageName) : Prop :=
  (∀ label ∈ name.labels, IsLabel label) ∧ ∀ p ∈ name.pointer, p.toNat < offset

/-- A well-formed response to the question of `get_ip_from_name`: its id and question, the flag of
responses and no error; the names can be read, data lengths fit their fields, and A records hold
addresses. -/
structure Response.Answers (labels : List (List Byte)) (queryType : BitVec 16) (r : Response) :
    Prop where
  id : r.id = 0x1234#16
  flags : r.flags &&& 0x800f#16 = 0x8000#16
  name : r.name = ⟨labels, none⟩
  type : r.queryType = queryType
  netClass : r.queryClass = 1#16
  names : ∀ i (h : i < r.records.length), (r.records.get ⟨i, h⟩).name.WellFormed
    (r.head ++ (r.records.take i).flatMap ResourceRecord.bytes).length
  data : ∀ record ∈ r.records, record.rdata.length < 2 ^ 16
  addresses : ∀ record ∈ r.records, record.type = 1#16 → record.netClass = 1#16 →
    record.rdata.length = 4

/-! ### The code -/

/-- `"%d.%d.%d.%d"` -/
def addressFormat : List Byte :=
  [0x25#8, 0x64#8, 0x2e#8, 0x25#8, 0x64#8, 0x2e#8, 0x25#8, 0x64#8, 0x2e#8, 0x25#8, 0x64#8, 0#8]

/-- `sizeof(struct ANSWER)` -/
def answerSize : Nat := 16

/-- The `sprintf` of both branches. `none` is an `answer` in front of the block. -/
def printAnswer (ftoa : BitVec 64 → Nat → List Byte) (addr dns : Bytes) (count : Nat) :
    Option Bytes :=
  if count < answerSize then none
  else
    let answer := count - answerSize
    let address := fun k => Arg.int ((dns (answer + 12 + k)).setWidth 32)
    (vsprintf ftoa addr addressFormat [address 0, address 1, address 2, address 3]).map Prod.snd

/-- `get_ip_from_name` behind `sendto`, with the query in the block `dns`: whether it returns
`addr`, and the memory there. -/
def getIpFromNameAnswer (ftoa : BitVec 64 → Nat → List Byte) (addr dns : Bytes) (socketid : Nat)
    (net : Sockets) : Option (Bool × Bytes) := do
  let dns := fillBytes dns 0 12 0#8
  let (received, _) ← recvfrom socketid dns 0x1000 net
  let count := received.result
  let dns := received.buffer
  if count < 1 then pure (false, addr)
  else
    let answerRr := htons (half dns 6)
    let addr ←
      if answerRr &&& 0x3#16 ≠ 0#16 then printAnswer ftoa addr dns count
      else if answerRr &&& 0x4#16 ≠ 0#16 then printAnswer ftoa addr dns count
      else some addr
    pure (decide (addr 0 ≠ 0#8), addr)

/-! ### What is asked of it -/

/-- The text of an address. -/
def addressText (address : List Byte) : List Byte := separatedText dot (address.map BitVec.toNat)

/-- The result is `addr`, with the text of the address of an A record of the answer section. -/
def ReturnsAddress (r : Response) (result : Option (Bool × Bytes)) : Prop :=
  ∃ addr, result = some (true, addr) ∧
    ∃ record ∈ r.answers, record.IsA ∧ HoldsString addr 0 (addressText record.rdata)

/-- The socket has received a datagram that has not been read. -/
def HoldsDatagram (net : Sockets) (socketid : Nat) (datagram : List Byte) : Prop :=
  ∃ fd, (net.sockets.find? fun saddr => saddr.id = socketid) = some fd ∧
    fd.flags &&& 0x80#8 ≠ 0#8 ∧ fd.full = true ∧ slice fd.buf1 0 fd.length1 = datagram

/-- The last four bytes. -/
def lastFour (bytes : List Byte) : List Byte := bytes.drop (bytes.length - 4)

/-- The part of the response that is received. -/
def Response.received (r : Response) : List Byte := r.bytes.take 0x1000

variable {ftoa : BitVec 64 → Nat → List Byte} {addr dns m : Bytes} {a count socketid : Nat}
  {net : Sockets} {r : Response} {address address' datagram : List Byte}

/-! ### The text of an address -/

/-- `vsprintf` of a byte. -/
theorem vsputs_byte (b : Byte) : vsputsR (itoa (b.setWidth 32)) = decimalText b.toNat := by
  have hvalue : (b.setWidth 32).toNat = b.toNat := by
    have hb := b.isLt
    rw [BitVec.toNat_setWidth]
    omega
  have hsign : (b.setWidth 32).slt 0#32 = false := by
    have hb := b.isLt
    rw [BitVec.slt_zero_eq_msb, BitVec.msb_eq_false_iff_two_mul_lt, hvalue]
    omega
  have hnumeral : itoa (b.setWidth 32) = decimalText b.toNat := by
    rw [itoa, signed_numeral_of_nonneg hsign, hvalue]
  rw [hnumeral, vsputsR, cString, List.takeWhile_eq_self_iff]
  intro c hc
  have hdigit := decimal_text_digit hc
  refine decide_eq_true fun hzero => ?_
  rw [hzero] at hdigit
  exact absurd hdigit.1 (by decide)

/-- The text of the format with the four bytes of an address. -/
theorem vsprintf_address (ftoa : BitVec 64 → Nat → List Byte) (b₀ b₁ b₂ b₃ : Byte) :
    vsprintfText ftoa addressFormat [.int (b₀.setWidth 32), .int (b₁.setWidth 32),
      .int (b₂.setWidth 32), .int (b₃.setWidth 32)] = some (addressText [b₀, b₁, b₂, b₃]) := by
  have hswitch : ∀ (b : Byte) (ap : List Arg), vsprintfSwitch ftoa false 0x64#8
      (.int (b.setWidth 32) :: ap) = some (decimalText b.toNat, ap) := by
    intro b ap
    rw [← vsputs_byte b]
    rfl
  simp [vsprintfText, addressFormat, formatLoop, hswitch, addressText, separatedText, vsputsR,
    cString, dot]

theorem dot_separates : IsSeparator dot := .inl (by decide)

/-- No character of the text is 0. -/
theorem zero_not_mem_address_text : 0#8 ∉ addressText address := by
  intro hmem
  rcases mem_separated_text hmem with hdot | hdigit
  · exact absurd hdot (by decide)
  · exact absurd hdigit.1 (by decide)

/-- An address is known from its text. -/
theorem address_text_injective (hne : address ≠ []) (hne' : address' ≠ [])
    (h : addressText address = addressText address') : address = address' := by
  refine List.map_injective_iff.mpr (fun x y hxy => BitVec.eq_of_toNat_eq hxy) ?_
  exact separated_text_injective dot_separates (fun hnil => hne (List.map_eq_nil_iff.mp hnil))
    (fun hnil => hne' (List.map_eq_nil_iff.mp hnil)) h

theorem address_text_ne_nil (hne : address ≠ []) : addressText address ≠ [] := by
  intro hnil
  cases address with
  | nil => exact hne rfl
  | cons b rest =>
      have hfirst := decimal_text_ne_nil b.toNat
      rw [addressText, separatedText, List.map_cons, List.map_cons] at hnil
      cases rest with
      | nil =>
          rw [List.map_nil, List.map_nil, List.intercalate_singleton] at hnil
          exact hfirst hnil
      | cons next rest =>
          rw [List.map_cons, List.map_cons, List.intercalate_cons_cons, List.append_assoc] at hnil
          exact hfirst (List.append_eq_nil_iff.mp hnil).1

/-- What `sprintf` leaves. -/
theorem formatted_holds (addr : Bytes) (text : List Byte) :
    HoldsString (formatted addr text) 0 text := by
  intro i hi
  rw [Nat.zero_add]
  exact formatted_byte hi

theorem formatted_address_holds_iff (hne : address ≠ []) (hne' : address' ≠ []) :
    HoldsString (formatted addr (addressText address)) 0 (addressText address') ↔
      address = address' := by
  constructor
  · intro h
    have hsame := (formatted_holds addr (addressText address)).unique h zero_not_mem_address_text
      zero_not_mem_address_text
    exact address_text_injective hne hne' hsame
  · rintro rfl
    exact formatted_holds addr _

/-- The text is not empty. -/
theorem formatted_address_ne_zero (hne : address ≠ []) :
    formatted addr (addressText address) 0 ≠ 0#8 := by
  intro hzero
  have hnil := (formatted_holds addr (addressText address)).unique
    (HoldsString.nil_iff.mpr hzero) zero_not_mem_address_text List.not_mem_nil
  exact address_text_ne_nil hne hnil

/-! ### What is received -/

/-- `recvfrom` copies the datagram, cut to the length of the block. -/
theorem recvfrom_datagram (h : HoldsDatagram net socketid datagram) (buffer : Bytes) :
    ∃ received net', recvfrom socketid buffer 0x1000 net = some (received, net') ∧
      received.result = (datagram.take 0x1000).length ∧
      slice received.buffer 0 received.result = datagram.take 0x1000 := by
  obtain ⟨fd, hfd, hbound, hfull, rfl⟩ := h
  have hlength : (if fd.length1 < 0x1000 then fd.length1 else 0x1000) =
      min 0x1000 fd.length1 := by
    split <;> omega
  have htake : (slice fd.buf1 0 fd.length1).take 0x1000 =
      slice fd.buf1 0 (min 0x1000 fd.length1) := by
    rw [slice, ← List.map_take, List.take_range]
    rfl
  unfold recvfrom
  rw [if_neg (by decide), hfd]
  dsimp only
  rw [if_neg hbound, if_neg (by rw [hfull]; decide), hlength]
  refine ⟨_, _, rfl, ?_, ?_⟩
  · rw [htake, slice_length]
  · rw [htake]
    exact slice_congr fun i hi => copy_bytes_inside hi

/-- A 16-bit field in network order. -/
theorem half_of_slice {v : BitVec 16} (h : slice m a 2 = netHalf v) : htons (half m a) = v := by
  have hpair : slice m a 2 = [m a, m (a + 1)] := rfl
  rw [hpair, netHalf, List.cons.injEq, List.cons.injEq] at h
  refine BitVec.eq_of_toNat_eq ?_
  have hhigh : v.toNat / 2 ^ 8 < 2 ^ 8 := by
    have hv := v.isLt
    omega
  have hlow : v.toNat % 2 ^ 8 < 2 ^ 8 := Nat.mod_lt _ (by decide)
  have hparts := Nat.div_add_mod v.toNat (2 ^ 8)
  rw [htons_to_nat, half_to_nat, h.1, h.2.1, swapBytes, BitVec.toNat_ofNat, BitVec.toNat_ofNat,
    Nat.mod_eq_of_lt hhigh]
  generalize v.toNat / 2 ^ 8 = high at *
  generalize v.toNat % 2 ^ 8 = low at *
  omega

/-- The tests of the number of answers. -/
theorem answer_tests (v : BitVec 16) :
    (v &&& 0x3#16 ≠ 0#16 ∨ v &&& 0x4#16 ≠ 0#16) ↔ v.toNat % 8 ≠ 0 := by
  have hmask : ∀ k < 8, (v &&& BitVec.ofNat 16 k).toNat = v.toNat % 8 &&& k := by
    intro k hk
    have hbound : v.toNat &&& k < 8 := Nat.and_le_right.trans_lt hk
    have hmod : (v.toNat &&& k) % 2 ^ 3 = v.toNat % 2 ^ 3 &&& k % 2 ^ 3 := Nat.and_mod_two_pow
    have hk' : k % 2 ^ 3 = k := Nat.mod_eq_of_lt hk
    rw [BitVec.toNat_and, BitVec.toNat_ofNat, Nat.mod_eq_of_lt (show k < 2 ^ 16 by omega),
      ← Nat.mod_eq_of_lt hbound]
    rwa [hk'] at hmod
  have hthree := hmask 3 (by decide)
  have hfour := hmask 4 (by decide)
  rw [← BitVec.toNat_ne_iff_ne, ← BitVec.toNat_ne_iff_ne]
  have hrest : v.toNat % 8 < 8 := Nat.mod_lt _ (by decide)
  rw [hthree, hfour]
  generalize v.toNat % 8 = rest at *
  interval_cases rest <;> decide

theorem message_name_length (name : MessageName) : 1 ≤ name.bytes.length := by
  rw [MessageName.bytes, List.length_append]
  cases name.pointer with
  | none => exact Nat.le_add_left 1 _
  | some offset => exact (show 1 ≤ 2 by decide).trans (Nat.le_add_left 2 _)

@[simp] theorem net_half_length (v : BitVec 16) : (netHalf v).length = 2 := rfl

/-- A response is longer than `struct ANSWER`. -/
theorem received_length (r : Response) : answerSize ≤ r.received.length := by
  have hname := message_name_length r.name
  have hhead : answerSize ≤ r.head.length := by
    simp only [Response.head, Response.opening, Response.closing, List.length_append,
      net_half_length, answerSize]
    omega
  rw [Response.received, Response.bytes, List.length_take, List.length_append, answerSize]
  unfold answerSize at hhead
  omega

/-- Where the number of answers is. -/
theorem received_answers (r : Response) : ∃ front behind, front.length = 6 ∧
    r.received = front ++ (netHalf (BitVec.ofNat 16 r.answers.length) ++ behind) := by
  have htake : ∀ front count rest : List Byte, front.length = 6 → count.length = 2 →
      (front ++ (count ++ rest)).take 0x1000 = front ++ (count ++ rest.take 0xff8) := by
    intro front count rest hfront hcount
    rw [List.take_append, List.take_append, hfront, hcount, List.take_of_length_le (by omega),
      List.take_of_length_le (by omega)]
  refine ⟨r.opening, (r.closing ++ r.records.flatMap ResourceRecord.bytes).take 0xff8, rfl, ?_⟩
  rw [Response.received, Response.bytes, Response.head, List.append_assoc, List.append_assoc]
  exact htake _ _ _ rfl rfl

/-- The number that is tested is the number of answers. -/
theorem answer_count (h : slice m 0 r.received.length = r.received) :
    (htons (half m 6)).toNat = r.answers.length := by
  obtain ⟨front, behind, hfront, hparts⟩ := received_answers r
  rw [hparts] at h
  obtain ⟨-, hrest⟩ := slice_append_parts h
  obtain ⟨hcount, -⟩ := slice_append_parts hrest
  rw [hfront, net_half_length] at hcount
  rw [half_of_slice hcount, BitVec.toNat_ofNat, Nat.mod_eq_of_lt r.counted.1]

/-- The bytes that are printed. -/
theorem slice_last_four (h : slice m 0 datagram.length = datagram) (hlong : 4 ≤ datagram.length) :
    slice m (datagram.length - 4) 4 = lastFour datagram := by
  have hlength : datagram.length - 4 + 4 = datagram.length := Nat.sub_add_cancel hlong
  have hsplit : slice m 0 (datagram.length - 4) ++ slice m (datagram.length - 4) 4 = datagram := by
    have hadd := slice_add m 0 (datagram.length - 4) 4
    rw [hlength, h, Nat.zero_add] at hadd
    exact hadd.symm
  calc slice m (datagram.length - 4) 4
      = (slice m 0 (datagram.length - 4) ++ slice m (datagram.length - 4) 4).drop
          (datagram.length - 4) := (List.drop_left' (slice_length ..)).symm
    _ = lastFour datagram := by rw [hsplit, lastFour]

theorem print_answer_eq (ftoa : BitVec 64 → Nat → List Byte) (addr dns : Bytes)
    (hcount : answerSize ≤ count) : printAnswer ftoa addr dns count =
      some (formatted addr (addressText (slice dns (count - 4) 4))) := by
  have hplace : ∀ k, count - answerSize + 12 + k = count - 4 + k := by
    intro k
    unfold answerSize at *
    omega
  have hslice : slice dns (count - 4) 4 =
      [dns (count - 4 + 0), dns (count - 4 + 1), dns (count - 4 + 2), dns (count - 4 + 3)] := rfl
  rw [printAnswer, if_neg (Nat.not_lt.mpr hcount)]
  simp only [hplace]
  rw [vsprintf, vsprintf_address, hslice]
  rfl

/-- What is in `addr` at the end. -/
def addrAfter (addr : Bytes) (r : Response) : Bytes :=
  if r.answers.length % 8 ≠ 0 then formatted addr (addressText (lastFour r.received)) else addr

/-- The result for a response: the text of the last four bytes, unless the number of answers is a
multiple of 8. -/
theorem get_ip_answer_eq (ftoa : BitVec 64 → Nat → List Byte) (addr dns : Bytes)
    (h : HoldsDatagram net socketid r.bytes) :
    getIpFromNameAnswer ftoa addr dns socketid net =
      some (decide (addrAfter addr r 0 ≠ 0#8), addrAfter addr r) := by
  obtain ⟨received, net', hrecv, hcount, hbuffer⟩ :=
    recvfrom_datagram h (fillBytes dns 0 12 0#8)
  have hlength := received_length r
  change received.result = r.received.length at hcount
  rw [hcount] at hbuffer
  have hprint := print_answer_eq ftoa addr received.buffer hlength
  rw [slice_last_four hbuffer ((show 4 ≤ answerSize by decide).trans hlength)] at hprint
  have htests := answer_tests (htons (half received.buffer 6))
  rw [answer_count hbuffer] at htests
  have hsome : ¬ received.result < 1 := by
    unfold answerSize at hlength
    omega
  rw [getIpFromNameAnswer, hrecv]
  simp only [Option.bind_eq_bind, Option.bind_some]
  rw [if_neg hsome, hcount, hprint, addrAfter]
  generalize htons (half received.buffer 6) = answerRr at htests
  by_cases hthree : answerRr &&& 0x3#16 ≠ 0#16
  · rw [if_pos hthree, if_pos (htests.mp (.inl hthree))]
    rfl
  · rw [if_neg hthree]
    by_cases hfour : answerRr &&& 0x4#16 ≠ 0#16
    · rw [if_pos hfour, if_pos (htests.mp (.inr hfour))]
      rfl
    · have hnone : ¬ r.answers.length % 8 ≠ 0 := fun hne => by
        rcases htests.mpr hne with h | h
        · exact hthree h
        · exact hfour h
      rw [if_neg hfour, if_neg hnone]
      rfl

/-- A four-byte list is not empty. -/
theorem last_four_ne_nil (r : Response) : lastFour r.received ≠ [] := by
  intro hnil
  have hlength := received_length r
  have hdrop := congrArg List.length hnil
  rw [lastFour, List.length_drop, List.length_nil] at hdrop
  unfold answerSize at hlength
  omega

theorem ResourceRecord.IsA.ne_nil {record : ResourceRecord} (h : record.IsA) :
    record.rdata ≠ [] := by
  intro hnil
  have hlength := h.2.2
  rw [hnil] at hlength
  cases hlength

/-- For every response, the result is the text of the address of an A record of the answer section
exactly in two cases: the number of answers is no multiple of 8, and the last four of the first 4096
bytes are the address of such a record; or it is a multiple of 8, and the text of such an address
was in `addr` before. -/
theorem get_ip_answer_iff (ftoa : BitVec 64 → Nat → List Byte) (addr dns : Bytes) (socketid : Nat)
    (net : Sockets) (r : Response) (h : HoldsDatagram net socketid r.bytes) :
    ReturnsAddress r (getIpFromNameAnswer ftoa addr dns socketid net) ↔
      (r.answers.length % 8 ≠ 0 ∧ ∃ record ∈ r.answers, record.IsA ∧
        lastFour r.received = record.rdata) ∨
      (r.answers.length % 8 = 0 ∧ ∃ record ∈ r.answers, record.IsA ∧
        HoldsString addr 0 (addressText record.rdata)) := by
  rw [get_ip_answer_eq ftoa addr dns h]
  unfold addrAfter
  by_cases hcount : r.answers.length % 8 ≠ 0
  · rw [if_pos hcount]
    have hfirst : formatted addr (addressText (lastFour r.received)) 0 ≠ 0#8 :=
      formatted_address_ne_zero (last_four_ne_nil r)
    constructor
    · rintro ⟨addr', hresult, record, hrecord, hA, hholds⟩
      obtain ⟨-, rfl⟩ := Prod.mk.inj (Option.some.inj hresult)
      exact .inl ⟨hcount, record, hrecord, hA,
        (formatted_address_holds_iff (last_four_ne_nil r) hA.ne_nil).mp hholds⟩
    · rintro (⟨-, record, hrecord, hA, hlast⟩ | ⟨hmultiple, -⟩)
      · refine ⟨_, by rw [decide_eq_true hfirst], record, hrecord, hA, ?_⟩
        exact (formatted_address_holds_iff (last_four_ne_nil r) hA.ne_nil).mpr hlast
      · exact absurd hmultiple hcount
  · rw [if_neg hcount]
    rw [not_not] at hcount
    constructor
    · rintro ⟨addr', hresult, record, hrecord, hA, hholds⟩
      obtain ⟨-, rfl⟩ := Prod.mk.inj (Option.some.inj hresult)
      exact .inr ⟨hcount, record, hrecord, hA, hholds⟩
    · rintro (⟨hother, -⟩ | ⟨-, record, hrecord, hA, hholds⟩)
      · exact absurd hcount hother
      · have hfirst : addr 0 ≠ 0#8 := by
          intro hzero
          have hnil := hholds.unique (HoldsString.nil_iff.mpr hzero) zero_not_mem_address_text
            List.not_mem_nil
          exact address_text_ne_nil hA.ne_nil hnil
        exact ⟨addr, by rw [decide_eq_true hfirst], record, hrecord, hA, hholds⟩

/-- An A record at the end of a short response: its address comes last. -/
theorem last_four_of_last_record {records : List ResourceRecord} {record : ResourceRecord}
    (hrecords : r.records = records ++ [record]) (hA : record.IsA)
    (hshort : r.bytes.length ≤ 0x1000) : lastFour r.received = record.rdata := by
  obtain ⟨front, hfront⟩ : ∃ front, r.bytes = front ++ record.rdata := by
    refine ⟨r.head ++ (records.flatMap ResourceRecord.bytes ++ (record.name.bytes ++
      (netHalf record.type ++ (netHalf record.netClass ++
        (netHalf ((record.ttl >>> 16).setWidth 16) ++ (netHalf (record.ttl.setWidth 16) ++
          netHalf (BitVec.ofNat 16 record.rdata.length))))))), ?_⟩
    simp only [Response.bytes, hrecords, List.flatMap_append, List.flatMap_singleton,
      ResourceRecord.bytes, List.append_assoc]
  have hlength : (front ++ record.rdata).length - 4 = front.length := by
    rw [List.length_append, hA.2.2, Nat.add_sub_cancel]
  rw [Response.received, List.take_of_length_le hshort, lastFour, hfront, hlength, List.drop_left]

/-! ### Two responses -/

/-- The address 192.0.2.1 for the name of the question. -/
def addressRecord : ResourceRecord :=
  ⟨⟨[], some 12#14⟩, 1#16, 1#16, 60#32, [192#8, 0#8, 2#8, 1#8]⟩

/-- A response to the question for `a.bc`, with some additional records. -/
def shortResponse (additional : List ResourceRecord) (h : additional.length < 2 ^ 16) : Response where
  id := 0x1234#16
  flags := 0x8180#16
  name := ⟨[[0x61#8], [0x62#8, 0x63#8]], none⟩
  queryType := 1#16
  queryClass := 1#16
  answers := [addressRecord]
  authority := []
  additional := additional
  counted := ⟨by decide, by decide, h⟩

/-- One socket, which has received the datagram. -/
def socketWith (datagram : List Byte) : Sockets where
  sockets := [⟨1, afInet, 7#16, 0#16, 0#32, 0#8, 0x82#8, datagram.length,
    fun i => datagram.getD i 0#8⟩]
  socktReceiveRow := fun _ =>
    ⟨0#8, ⟨0, 0#32, 0#32, 0#16, 0#16, fun _ => 0#8, 0, 0#32, 0#32, 0#8⟩⟩
  rowCur := 0

theorem socket_with_holds (datagram : List Byte) :
    HoldsDatagram (socketWith datagram) 1 datagram := by
  refine ⟨_, rfl, show 0x82#8 &&& 0x80#8 ≠ 0#8 by decide,
    decide_eq_true (show 0x82#8 &&& 0x2#8 ≠ 0#8 by decide),
    List.ext_getElem (slice_length ..) fun k hk hlt => ?_⟩
  simp only [slice, List.getElem_map, List.getElem_range, Nat.zero_add]
  rw [List.getD_eq_getElem?_getD, List.getElem?_eq_getElem hlt, Option.getD_some]

/-- The address comes last when there is no additional record. -/
theorem get_ip_answer_short :
    ReturnsAddress (shortResponse [] (by decide)) (getIpFromNameAnswer (fun _ _ => [])
      (fun _ => 0#8) (fun _ => 0#8) 1 (socketWith (shortResponse [] (by decide)).bytes)) :=
  (get_ip_answer_iff _ _ _ 1 _ _ (socket_with_holds _)).mpr (.inl ⟨by decide, addressRecord,
    List.mem_singleton_self _, ⟨rfl, rfl, rfl⟩,
    @last_four_of_last_record (shortResponse [] (by decide)) [] addressRecord rfl ⟨rfl, rfl, rfl⟩
      (by decide)⟩)

/-- An additional record of the type OPT, as servers add it. -/
def optRecord : ResourceRecord := ⟨⟨[], none⟩, 41#16, 4096#16, 0#32, []⟩

/-- With that record behind the answer, the result is the text `0.0.0.0`. -/
theorem get_ip_answer_opt :
    (shortResponse [optRecord] (by decide)).Answers [[0x61#8], [0x62#8, 0x63#8]] 1#16 ∧
      addressRecord ∈ (shortResponse [optRecord] (by decide)).answers ∧ addressRecord.IsA ∧
      ¬ ReturnsAddress (shortResponse [optRecord] (by decide)) (getIpFromNameAnswer
        (fun _ _ => []) (fun _ => 0#8) (fun _ => 0#8) 1
        (socketWith (shortResponse [optRecord] (by decide)).bytes)) := by
  refine ⟨⟨rfl, rfl, rfl, rfl, rfl, ?_, by decide, by decide⟩, List.mem_singleton_self _,
    ⟨rfl, rfl, rfl⟩, ?_⟩
  · intro i h
    have hlt : i < 2 := h
    interval_cases i
    · exact ⟨fun _ hlabel => absurd hlabel List.not_mem_nil, fun p hp => by
        obtain rfl := Option.some.inj hp
        decide⟩
    · exact ⟨fun _ hlabel => absurd hlabel List.not_mem_nil, fun p hp => by cases hp⟩
  · rintro ⟨addr', hresult, record, hrecord, hA, hholds⟩
    obtain rfl := List.mem_singleton.mp hrecord
    have hlast : lastFour (shortResponse [optRecord] (by decide)).received =
        [0#8, 0#8, 0#8, 0#8] := by decide
    rw [get_ip_answer_eq _ _ _ (socket_with_holds _)] at hresult
    obtain ⟨-, rfl⟩ := Prod.mk.inj (Option.some.inj hresult)
    rw [addrAfter, if_pos (by decide), hlast] at hholds
    have hsame := (formatted_address_holds_iff (List.cons_ne_nil _ _) hA.ne_nil).mp hholds
    exact absurd hsame (by decide)

end Sirius.Net
