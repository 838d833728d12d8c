import Mathlib.Tactic
import Sirius.Library.Runs
import Sirius.Library.Walks
import Sirius.Net.Wire

/-!
# The options of a DHCP packet

`dhcp_parse_options` of `kernel/driver/net/dhcp.c` looks for three options and goes over the length
and the data of these only. Every other byte, also the code, the length and the data of another
option and the end mark, is taken for a code of its own. So the places where the loop looks for a
code are not those of the options, and the last place counts, where a reader of the options stops
at the first one.
-/

namespace Sirius.Net

open Library

/-- The addresses that a DHCP packet sets. -/
structure DhcpAddresses where
  (yourIp routerIp dnsIp dhcpIp : Ip)

/-- The options that are looked for. -/
inductive ServerOption where
  | router
  | dns
  | serverId
  deriving DecidableEq

namespace ServerOption

/-- `OPT_ROUTER`, `OPT_DNS` and `OPT_SERVER_ID` -/
def code : ServerOption → Byte
  | router => 3#8
  | dns => 6#8
  | serverId => 54#8

/-- The address that an option sets. -/
def get : ServerOption → DhcpAddresses → Ip
  | router, addresses => addresses.routerIp
  | dns, addresses => addresses.dnsIp
  | serverId, addresses => addresses.dhcpIp

/-- `fillIP` to the address that an option sets. -/
def set : ServerOption → Ip → DhcpAddresses → DhcpAddresses
  | router, ip, addresses => { addresses with routerIp := ip }
  | dns, ip, addresses => { addresses with dnsIp := ip }
  | serverId, ip, addresses => { addresses with dhcpIp := ip }

end ServerOption

/-! ### The code -/

/-- The state of the loop: `i`, the addresses, and the indices of `options` that were read. -/
structure OptionState where
  i : Nat
  addresses : DhcpAddresses
  reads : List Nat

/-- `dhcp->options[i++]` -/
def OptionState.next (s : OptionState) : OptionState :=
  { s with i := s.i + 1, reads := s.i :: s.reads }

/-- `fillIP` from `dhcp->options[i]`. -/
def OptionState.fill (options : Bytes) (o : ServerOption) (s : OptionState) : OptionState :=
  { s with
    addresses := o.set (array options s.i 4) s.addresses
    reads := (s.i + 3) :: (s.i + 2) :: (s.i + 1) :: s.i :: s.reads }

/-- One of the three cases of the loop. -/
def optionCase (options : Bytes) (o : ServerOption) (optType : Byte) (s : OptionState) :
    OptionState :=
  if optType = o.code then
    let ipSize := (options s.i).toNat
    let s := s.next
    let s := if ipSize = 4 then s.fill options o else s
    { s with i := s.i + ipSize }
  else s

/-- The three cases of the loop, one after another. -/
def optionCases (options : Bytes) (optType : Byte) (s : OptionState) : OptionState :=
  let s := optionCase options .router optType s
  let s := optionCase options .dns optType s
  optionCase options .serverId optType s

/-- The loop of `dhcp_parse_options`. -/
def parseLoop (options : Bytes) : (fuel : Nat) → OptionState → Option OptionState
  | 0, _ => none
  | fuel + 1, s =>
      let optType := options s.i
      let s := s.next
      if s.i ≥ 308 then some s else parseLoop options fuel (optionCases options optType s)

/-- The field `options` of a packet. -/
def dhcpOptions (dhcp : Bytes) : Bytes := fun i => dhcp (240 + i)

/-- `dhcp_parse_options` -/
def dhcpParseOptions (dhcp : Bytes) (addresses : DhcpAddresses) (fuel : Nat) :
    Option (Int × OptionState) :=
  if htonl (word dhcp 236) ≠ 0x63825363#32 then some (-1, ⟨0, addresses, []⟩)
  else
    (parseLoop (dhcpOptions dhcp) fuel
      ⟨0, { addresses with yourIp := array dhcp 16 4 }, []⟩).map fun s => (0, s)

/-! ### The options of a packet -/

/-- At `p` is an option that ends in the field. -/
def IsOption (options : Bytes) (p : Nat) : Prop :=
  options p ≠ 0#8 ∧ options p ≠ 255#8 ∧ p + 1 < 308 ∧ p + 2 + (options (p + 1)).toNat ≤ 308

instance (options : Bytes) (p : Nat) : Decidable (IsOption options p) :=
  inferInstanceAs (Decidable (_ ∧ _))

/-- Where the field goes on behind a pad byte or an option. -/
def rfcNext (options : Bytes) (p : Nat) : Option Nat :=
  if p < 308 ∧ options p = 0#8 then some (p + 1)
  else if IsOption options p then some (p + 2 + (options (p + 1)).toNat)
  else none

/-- At `p` is an option of that code with four bytes. -/
def RfcHit (options : Bytes) (o : ServerOption) (p : Nat) : Prop :=
  IsOption options p ∧ options p = o.code ∧ options (p + 1) = 4#8

instance (options : Bytes) (o : ServerOption) (p : Nat) : Decidable (RfcHit options o p) :=
  inferInstanceAs (Decidable (_ ∧ _))

/-- The first such option has the address `ip`. -/
def FirstOption (options : Bytes) (o : ServerOption) (ip : Ip) : Prop :=
  ∃ p, FirstVisit (rfcNext options) (RfcHit options o) p ∧ array options (p + 2) 4 = ip

/-- The function reads bytes of the field only and sets the addresses to those of the first
options; an address without an option keeps its value. -/
def DhcpOptionsLaw (dhcp : Bytes) : Prop :=
  ∀ addresses, ∃ s, Returns (dhcpParseOptions dhcp addresses) (0, s) ∧ (∀ r ∈ s.reads, r < 308) ∧
    ∀ o : ServerOption, Chosen (FirstOption (dhcpOptions dhcp) o) (o.get addresses)
      (o.get s.addresses)

/-! ### The stops of the loop -/

/-- The code of one of the three options. -/
def IsServerCode (c : Byte) : Prop := c = 3#8 ∨ c = 6#8 ∨ c = 54#8

instance (c : Byte) : Decidable (IsServerCode c) := inferInstanceAs (Decidable (_ ∨ _))

/-- Where the loop looks for the next code. -/
def stopNext (options : Bytes) (p : Nat) : Option Nat :=
  if p < 307 then
    if IsServerCode (options p) then some (p + 2 + (options (p + 1)).toNat) else some (p + 1)
  else none

/-- At `p` the loop finds that code and the length 4. -/
def StopHit (options : Bytes) (o : ServerOption) (p : Nat) : Prop :=
  p < 307 ∧ options p = o.code ∧ options (p + 1) = 4#8

instance (options : Bytes) (o : ServerOption) (p : Nat) : Decidable (StopHit options o p) :=
  inferInstanceAs (Decidable (_ ∧ _))

/-- The last such stop has the address `ip`. -/
def LastStop (options : Bytes) (o : ServerOption) (ip : Ip) : Prop :=
  ∃ p, LastVisit (stopNext options) (StopHit options o) p ∧ array options (p + 2) 4 = ip

/-- The stops end at the last byte of the field, and for each of the three codes the last stop with
four bytes has the same bytes as the first option. -/
def StopsAgree (options : Bytes) : Prop :=
  Visits (stopNext options) 307 ∧ ∀ o ip, LastStop options o ip ↔ FirstOption options o ip

variable {options : Bytes} {addresses : DhcpAddresses} {o o' : ServerOption} {optType : Byte}
  {s : OptionState} {p : Nat} {dhcp : Bytes}

instance : Nontrivial Ip := ⟨fun _ => 0#8, fun _ => 1#8, fun h => absurd (congrFun h 0) (by decide)⟩

theorem ServerOption.get_set (o o' : ServerOption) (ip : Ip) (addresses : DhcpAddresses) :
    o'.get (o.set ip addresses) = if o' = o then ip else o'.get addresses := by
  cases o <;> cases o' <;> rfl

theorem is_server_code_iff (c : Byte) : IsServerCode c ↔ ∃ o : ServerOption, c = o.code := by
  constructor
  · rintro (h | h | h)
    · exact ⟨.router, h⟩
    · exact ⟨.dns, h⟩
    · exact ⟨.serverId, h⟩
  · rintro ⟨o, rfl⟩
    cases o <;> decide

theorem code_injective (h : o.code = o'.code) : o = o' := by
  revert h
  cases o <;> cases o' <;> decide

theorem stop_next_forward (options : Bytes) : GoesForward (stopNext options) := by
  intro p q h
  unfold stopNext at h
  split at h
  · split at h <;> cases h <;> omega
  · cases h

theorem stop_next_of_code (hp : p < 307) (h : options p = o.code) :
    stopNext options p = some (p + 2 + (options (p + 1)).toNat) := by
  rw [stopNext, if_pos hp, if_pos ((is_server_code_iff _).mpr ⟨o, h⟩)]

theorem stop_next_of_other (hp : p < 307) (h : ¬ IsServerCode (options p)) :
    stopNext options p = some (p + 1) := by
  rw [stopNext, if_pos hp, if_neg h]

theorem stop_next_end (hp : 307 ≤ p) : stopNext options p = none :=
  if_neg (Nat.not_lt_of_le hp)

/-! ### The loop -/

theorem option_case_other (h : optType ≠ o.code) : optionCase options o optType s = s := if_neg h

/-- What a case does with its option. -/
theorem option_case_same (options : Bytes) (o : ServerOption) (s : OptionState) :
    let s' := optionCase options o o.code s
    s'.i = s.i + 1 + (options s.i).toNat ∧
      s'.addresses = (if (options s.i).toNat = 4 then o.set (array options (s.i + 1) 4) s.addresses
        else s.addresses) ∧
      ∀ r ∈ s'.reads, r ∈ s.reads ∨ r < s'.i ∧ s.i ≤ r := by
  unfold optionCase
  rw [if_pos rfl]
  by_cases hsize : (options s.i).toNat = 4
  · simp only [OptionState.next, OptionState.fill, hsize, if_true]
    refine ⟨trivial, trivial, fun r hr => ?_⟩
    simp only [List.mem_cons] at hr
    rcases hr with h | h | h | h | h | hr
    iterate 5 exact .inr (by omega)
    exact .inl hr
  · simp only [OptionState.next, hsize, if_false]
    refine ⟨trivial, trivial, fun r hr => ?_⟩
    rcases List.mem_cons.mp hr with rfl | hr
    · exact .inr ⟨by omega, Nat.le_refl _⟩
    · exact .inl hr

/-- Only the case of its code does something. -/
theorem option_cases_same (h : optType = o.code) :
    optionCases options optType s = optionCase options o o.code s := by
  subst h
  have hother : ∀ o', o ≠ o' → ∀ s, optionCase options o' o.code s = s := fun o' ho s =>
    option_case_other fun h => ho (code_injective h)
  change optionCase options .serverId o.code (optionCase options .dns o.code
    (optionCase options .router o.code s)) = _
  cases o with
  | router => rw [hother .dns (by decide), hother .serverId (by decide)]
  | dns => rw [hother .router (by decide), hother .serverId (by decide)]
  | serverId => rw [hother .router (by decide), hother .dns (by decide)]

theorem option_cases_other (h : ¬ IsServerCode optType) :
    optionCases options optType s = s := by
  have hother : ∀ o : ServerOption, optType ≠ o.code := fun o ho =>
    h ((is_server_code_iff _).mpr ⟨o, ho⟩)
  rw [optionCases, option_case_other (hother .router), option_case_other (hother .dns),
    option_case_other (hother .serverId)]

/-- The state when the loop looks for a code at `s.i`. -/
structure Walked (options : Bytes) (addresses : DhcpAddresses) (s : OptionState) : Prop where
  visited : Visits (stopNext options) s.i
  keeps : ∀ o : ServerOption, KeepsLast (stopNext options) (StopHit options o)
    (fun p => array options (p + 2) 4) s.i (o.get addresses) (o.get s.addresses)
  reads : ∀ r ∈ s.reads, r < s.i

/-- One round of the loop goes to the next stop. -/
theorem Walked.round (h : Walked options addresses s) (hi : s.i < 307) :
    Walked options addresses (optionCases options (options s.i) s.next) ∧
      s.i < (optionCases options (options s.i) s.next).i := by
  have hforward := stop_next_forward options
  by_cases hcode : IsServerCode (options s.i)
  · obtain ⟨o, ho⟩ := (is_server_code_iff _).mp hcode
    have hnext := stop_next_of_code hi ho
    obtain ⟨hplace, haddresses, hreads⟩ := option_case_same options o s.next
    rw [option_cases_same ho]
    generalize optionCase options o o.code s.next = s' at hplace haddresses hreads ⊢
    have hi' : s'.i = s.i + 2 + (options (s.i + 1)).toNat := hplace
    rw [← hi'] at hnext
    refine ⟨⟨h.visited.step hnext, fun o' => ?_, fun r hr => ?_⟩, hforward _ _ hnext⟩
    · rw [haddresses]
      by_cases hhit : StopHit options o' s.i
      · -- the bytes of this stop are the last ones so far
        obtain rfl : o = o' := code_injective (ho.symm.trans hhit.2.1)
        have hsize : (options s.next.i).toNat = 4 := congrArg BitVec.toNat hhit.2.2
        rw [if_pos hsize, ServerOption.get_set, if_pos rfl]
        exact KeepsLast.hit hforward h.visited hhit hnext
      · have hsame : o'.get (if (options s.next.i).toNat = 4 then
            o.set (array options (s.next.i + 1) 4) s.next.addresses else s.next.addresses) =
            o'.get s.addresses := by
          by_cases hsize : (options s.next.i).toNat = 4
          · have hne : o' ≠ o := fun hoo =>
              hhit ⟨hi, hoo ▸ ho, BitVec.eq_of_toNat_eq hsize⟩
            rw [if_pos hsize, ServerOption.get_set, if_neg hne]
            rfl
          · rw [if_neg hsize]
            rfl
        rw [hsame]
        exact (h.keeps o').skip hforward h.visited hhit hnext
    · rcases hreads r hr with hr | hr
      · rcases List.mem_cons.mp hr with rfl | hr
        · exact hforward _ _ hnext
        · exact (h.reads r hr).trans (hforward _ _ hnext)
      · exact hr.1
  · have hnext := stop_next_of_other hi hcode
    rw [option_cases_other hcode]
    refine ⟨⟨h.visited.step hnext, fun o => ?_, fun r hr => ?_⟩, Nat.lt_succ_self _⟩
    · refine (h.keeps o).skip hforward h.visited (fun hhit => ?_) hnext
      exact hcode ((is_server_code_iff _).mpr ⟨o, hhit.2.1⟩)
    · rcases List.mem_cons.mp hr with rfl | hr
      · exact Nat.lt_succ_self _
      · exact (h.reads r hr).trans (Nat.lt_succ_self _)

/-- The state behind the loop: the last stop was at `s.i - 1`. -/
structure Parsed (options : Bytes) (addresses : DhcpAddresses) (s : OptionState) : Prop where
  visited : Visits (stopNext options) (s.i - 1)
  atEnd : 307 ≤ s.i - 1
  chosen : ∀ o : ServerOption, Chosen (LastStop options o) (o.get addresses) (o.get s.addresses)
  reads : ∀ r ∈ s.reads, r ≤ s.i - 1
  lastRead : s.i - 1 ∈ s.reads

/-- The first read at or behind the last byte of the field ends the loop. -/
theorem Walked.ends (h : Walked options addresses s) (hi : 307 ≤ s.i) :
    Parsed options addresses s.next where
  visited := h.visited
  atEnd := hi
  chosen o := (h.keeps o).chosen fun _ _ hq => hq.1.trans_le hi
  reads r hr := by
    rcases List.mem_cons.mp hr with rfl | hr
    · exact Nat.le_refl _
    · exact (h.reads r hr).le
  lastRead := List.mem_cons_self

/-- The loop ends. -/
theorem Walked.parse (h : Walked options addresses s) :
    ∃ s', Returns (fun fuel => parseLoop options fuel s) s' ∧ Parsed options addresses s' := by
  generalize hleft : 307 - s.i = left
  induction left using Nat.strong_induction_on generalizing s with
  | _ left ih =>
      by_cases hi : s.i < 307
      · obtain ⟨hround, hforward⟩ := h.round hi
        obtain ⟨s', hreturns, hparsed⟩ := ih _ (by omega) hround rfl
        refine ⟨s', hreturns.succ fun fuel => ?_, hparsed⟩
        rw [parseLoop]
        exact if_neg (Nat.not_le_of_lt (Nat.succ_lt_succ hi))
      · refine ⟨s.next, Returns.of_add 1 fun fuel => ?_, h.ends (Nat.le_of_not_lt hi)⟩
        rw [parseLoop]
        exact if_pos (Nat.succ_le_succ (Nat.le_of_not_lt hi))

/-- A packet with the magic cookie is parsed; only `your_ip` is set before the loop. -/
theorem dhcp_parse_options_returns (hcookie : htonl (word dhcp 236) = 0x63825363#32)
    (addresses : DhcpAddresses) :
    ∃ s, Returns (dhcpParseOptions dhcp addresses) (0, s) ∧
      Parsed (dhcpOptions dhcp) addresses s := by
  have hstart : Walked (dhcpOptions dhcp) addresses
      ⟨0, { addresses with yourIp := array dhcp 16 4 }, []⟩ :=
    ⟨Visits.start, fun o => by cases o <;> exact KeepsLast.start _, fun r hr => by cases hr⟩
  obtain ⟨s, hreturns, hparsed⟩ := hstart.parse
  refine ⟨s, ?_, hparsed⟩
  obtain ⟨k, hk⟩ := hreturns
  refine ⟨k, fun fuel hfuel => ?_⟩
  rw [dhcpParseOptions, if_neg (not_not_intro hcookie)]
  exact congrArg (Option.map fun s => (0, s)) (hk fuel hfuel)

/-! ### The law -/

/-- The reads stay in the field exactly when its last byte is a stop. -/
theorem Parsed.reads_iff (h : Parsed options addresses s) :
    (∀ r ∈ s.reads, r < 308) ↔ Visits (stopNext options) 307 := by
  have hatEnd := h.atEnd
  constructor
  · intro hreads
    have := hreads _ h.lastRead
    have hlast : s.i - 1 = 307 := by omega
    exact hlast ▸ h.visited
  · intro hstop r hr
    have hend := Visits.le_end (stop_next_forward options) hstop (stop_next_end (Nat.le_refl _))
      h.visited
    have := h.reads r hr
    omega

/-- `dhcp_parse_options` keeps the law exactly when its stops agree with the options. -/
theorem dhcp_options_iff (hcookie : htonl (word dhcp 236) = 0x63825363#32) :
    DhcpOptionsLaw dhcp ↔ StopsAgree (dhcpOptions dhcp) := by
  constructor
  · intro h
    have hboth : ∀ addresses, ∃ s, Parsed (dhcpOptions dhcp) addresses s ∧
        (∀ r ∈ s.reads, r < 308) ∧ ∀ o : ServerOption,
          Chosen (FirstOption (dhcpOptions dhcp) o) (o.get addresses) (o.get s.addresses) := by
      intro addresses
      obtain ⟨s, hreturns, hreads, hchosen⟩ := h addresses
      obtain ⟨s', hreturns', hparsed⟩ := dhcp_parse_options_returns hcookie addresses
      cases hreturns.unique hreturns'
      exact ⟨s, hparsed, hreads, hchosen⟩
    constructor
    · obtain ⟨s, hparsed, hreads, -⟩ := hboth ⟨fun _ => 0#8, fun _ => 0#8, fun _ => 0#8, fun _ => 0#8⟩
      exact hparsed.reads_iff.mp hreads
    · intro o ip
      refine Chosen.iff_of_both (fun old => ?_) ip
      obtain ⟨s, hparsed, -, hchosen⟩ := hboth ⟨old, old, old, old⟩
      have hold : o.get ⟨old, old, old, old⟩ = old := by cases o <;> rfl
      have hlast := hparsed.chosen o
      have hfirst := hchosen o
      rw [hold] at hlast hfirst
      exact ⟨_, hlast, hfirst⟩
  · rintro ⟨hstop, hagree⟩ addresses
    obtain ⟨s, hreturns, hparsed⟩ := dhcp_parse_options_returns hcookie addresses
    exact ⟨s, hreturns, hparsed.reads_iff.mpr hstop, fun o => (hparsed.chosen o).congr (hagree o)⟩

/-! ### Two packets -/

/-- A packet with these options, and pad bytes behind them. -/
def packetWith (options : List Byte) : Bytes := fun i =>
  if 240 ≤ i then options.getD (i - 240) 0#8
  else match i with
    | 236 => 0x63#8
    | 237 => 0x82#8
    | 238 => 0x53#8
    | 239 => 0x63#8
    | _ => 0#8

theorem dhcp_options_packet_with (options : List Byte) (p : Nat) :
    dhcpOptions (packetWith options) p = options.getD p 0#8 := by
  unfold dhcpOptions packetWith
  rw [if_pos (Nat.le_add_right 240 p), Nat.add_sub_cancel_left]

theorem packet_pad {options : List Byte} (hp : options.length ≤ p) :
    dhcpOptions (packetWith options) p = 0#8 := by
  rw [dhcp_options_packet_with, List.getD_eq_getElem?_getD, List.getElem?_eq_none hp,
    Option.getD_none]

/-- An offer with the router 10.0.2.2. -/
def offerOptions : List Byte := [53#8, 1#8, 2#8, 3#8, 4#8, 10#8, 0#8, 2#8, 2#8, 255#8]

/-- An offer whose vendor option holds an option 3 of its own. -/
def vendorOptions : List Byte :=
  [53#8, 1#8, 2#8, 43#8, 9#8, 1#8, 1#8, 7#8, 3#8, 4#8, 192#8, 168#8, 0#8, 1#8, 255#8]

/-- Only the router option of the offer has one of the three codes. -/
theorem offer_code (h : dhcpOptions (packetWith offerOptions) p = o.code) : p = 3 ∧ o = .router := by
  by_cases hp : p < 10
  · rw [dhcp_options_packet_with] at h
    interval_cases p <;> cases o <;> revert h <;> decide
  · rw [packet_pad (Nat.le_of_not_lt hp)] at h
    exact absurd h (by cases o <;> decide)

theorem offer_stops_agree : StopsAgree (dhcpOptions (packetWith offerOptions)) := by
  have hother : ∀ p, p ≠ 3 → p < 307 →
      stopNext (dhcpOptions (packetWith offerOptions)) p = some (p + 1) := fun p hp hlt =>
    stop_next_of_other hlt fun hcode => by
      obtain ⟨o, ho⟩ := (is_server_code_iff _).mp hcode
      exact hp (offer_code ho).1
  have hthree : Visits (stopNext (dhcpOptions (packetWith offerOptions))) 3 :=
    Visits.start.run (by decide) fun p _ hp => hother p (by omega) (by omega)
  have hnine : Visits (stopNext (dhcpOptions (packetWith offerOptions))) 9 :=
    hthree.step (by decide)
  have hfirst : Visits (rfcNext (dhcpOptions (packetWith offerOptions))) 3 :=
    Visits.start.step (by decide)
  refine ⟨hnine.run (by decide) fun p hp hlt => hother p (by omega) hlt, fun o ip => ?_⟩
  constructor
  · rintro ⟨p, hp, rfl⟩
    obtain ⟨rfl, rfl⟩ := offer_code hp.ofKind.2.1
    exact ⟨3, ⟨hfirst, by decide, fun q hq _ hhit =>
      absurd (offer_code hhit.2.1).1 hq.ne⟩, rfl⟩
  · rintro ⟨p, hp, rfl⟩
    obtain ⟨rfl, rfl⟩ := offer_code hp.ofKind.2.1
    exact ⟨3, ⟨hthree, by decide, fun q hq _ hhit =>
      absurd (offer_code hhit.2.1).1 hq.ne'⟩, rfl⟩

theorem dhcp_options_iff_offer : DhcpOptionsLaw (packetWith offerOptions) :=
  (dhcp_options_iff (by decide)).mpr offer_stops_agree

/-- The vendor option sets the router, for which the packet has no option. -/
theorem vendor_option_taken : ¬ DhcpOptionsLaw (packetWith vendorOptions) := by
  intro h
  obtain ⟨s, hreturns, -, hchosen⟩ := h ⟨fun _ => 0#8, fun _ => 0#8, fun _ => 0#8, fun _ => 0#8⟩
  obtain ⟨s', hreturns', hparsed⟩ := @dhcp_parse_options_returns (packetWith vendorOptions)
    (by decide) ⟨fun _ => 0#8, fun _ => 0#8, fun _ => 0#8, fun _ => 0#8⟩
  cases hreturns.unique hreturns'
  have hnone : ∀ ip, ¬ FirstOption (dhcpOptions (packetWith vendorOptions)) .router ip := by
    have hplaces : ∀ p, Visits (rfcNext (dhcpOptions (packetWith vendorOptions))) p →
        p = 0 ∨ p = 3 ∨ p = 14 := by
      have hzero : rfcNext (dhcpOptions (packetWith vendorOptions)) 0 = some 3 := by decide
      have hthree : rfcNext (dhcpOptions (packetWith vendorOptions)) 3 = some 14 := by decide
      have hend : rfcNext (dhcpOptions (packetWith vendorOptions)) 14 = none := by decide
      intro p hp
      induction hp with
      | refl => exact .inl rfl
      | tail _ hnext ih =>
          rcases ih with rfl | rfl | rfl
          · cases hzero.symm.trans hnext
            exact .inr (.inl rfl)
          · cases hthree.symm.trans hnext
            exact .inr (.inr rfl)
          · cases hend.symm.trans hnext
    rintro ip ⟨p, hp, -⟩
    have hhit := hp.ofKind
    rcases hplaces p hp.visited with rfl | rfl | rfl <;> revert hhit <;> decide
  have hlast : LastStop (dhcpOptions (packetWith vendorOptions)) .router
      (array (dhcpOptions (packetWith vendorOptions)) 10 4) := by
    have height : Visits (stopNext (dhcpOptions (packetWith vendorOptions))) 8 :=
      Visits.start.run (by decide) fun p _ hp => by revert p; decide
    refine ⟨8, ⟨height, by decide, fun q hq hvisit hhit => ?_⟩, rfl⟩
    have hnext : stopNext (dhcpOptions (packetWith vendorOptions)) 8 = some 14 := by decide
    have hcode := hhit.2.1
    rcases height.gap (stop_next_forward _) hnext hvisit with hle | hle
    · omega
    · rcases Nat.eq_or_lt_of_le hle with rfl | hlt
      · revert hcode
        decide
      · rw [packet_pad hlt] at hcode
        revert hcode
        decide
  have hrouter := ((hparsed.chosen .router).1 _ hlast).symm.trans ((hchosen .router).2 hnone)
  exact absurd (congrFun hrouter 0) (by decide)

end Sirius.Net
