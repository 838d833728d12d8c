import Sirius.Net.DnsAnswer
import Sirius.Stdlib.NumberRoundTrip
import Sirius.Stdlib.Strtok

/-!
# Addresses from their text

`inet_addr` of `user/lib/sys/arpa/inet.c`, which takes the text of an address apart with `strtok`
and reads each part with `strtoul`. A client such as `telnet` gives it the text that
`get_ip_from_name` printed, and `address_text_round_trip` says that the four bytes come back. The
call leaves null bytes in its argument, so a second call on the same string sees the first number
only.
-/

namespace Sirius.Net

open Sirius.Library Sirius.Stdlib Sirius.Stdio

/-! ### The code -/

/-- `if(tmp) src[i] = strtoul (tmp,NULL, 10); else src[i] = 0;` -/
def octet (fuel : Nat) (m : Bytes) (tmp : Nat) : Option Byte :=
  if tmp ≠ 0 then (strtoul fuel m tmp 10).map fun r => BitVec.ofInt 8 r.1 else some 0#8

/-- `count` times `tmp = strtok(s, ". ");` and the byte for it, with `s` for the first of them:
the bytes, the static variable `last` of `strtok` and the memory. -/
def octets (fuel delim : Nat) : (count s last : Nat) → Bytes → Option (List Byte × Nat × Bytes)
  | 0, _, last, m => some ([], last, m)
  | count + 1, s, last, m => do
    let r ← strtokR fuel s delim last m
    let b ← octet fuel r.m r.tok
    (octets fuel delim count 0 r.last r.m).map fun t => (b :: t.1, t.2)

/-- `inet_addr(cp)`: the bytes of the address in memory order; `delim` is where the literal `". "`
lies. -/
def inetAddr (fuel delim cp last : Nat) (m : Bytes) : Option (List Byte × Nat × Bytes) :=
  octets fuel delim 4 cp last m

/-- `". "` -/
def dotBlank : List Byte := [0x2e#8, 0x20#8]

/-! ### One number -/

variable {m : Bytes} {a s delim last n : Nat} {numbers : List Nat} {b : Byte}

theorem octet_null (fuel : Nat) (m : Bytes) : octet fuel m 0 = some 0#8 := rfl

/-- The byte of a token that is a numeral. -/
theorem octet_numeral (ha : a ≠ 0) (hn : n < 2 ^ 32) (h : HoldsString m a (decimalText n)) :
    Returns (fun fuel => octet fuel m a) (BitVec.ofNat 8 n) := by
  have hnumeral : HoldsNumeral m a 10 n := by
    refine ⟨decimalText n, ?_, ?_⟩
    · rw [Int.natAbs_natCast]
      exact decimal_text_canonical n
    · rwa [if_neg (by omega), List.nil_append]
  obtain ⟨e, -, hcall⟩ := strtoul_numeral (by omega) (by omega) hn hnumeral
  have hread : Returns (fun fuel => strtoul fuel m a 10) ((n : Int), e) := hcall
  have hbyte := hread.map fun r => BitVec.ofInt 8 r.1
  rw [BitVec.ofInt_natCast] at hbyte
  refine hbyte.bind (Returns.pure _) fun fuel hfuel => ?_
  rw [octet, if_pos ha, hfuel]

/-- A numeral has no delimiter. -/
theorem numeral_no_delims (n : Nat) : NoDelims (isDelim dotBlank) (decimalText n) := by
  intro c hc
  have hdigit := decimal_text_digit hc
  rw [isDelim, List.contains_eq_mem, decide_eq_false_iff_not]
  intro hmem
  simp only [dotBlank, List.mem_cons, List.not_mem_nil, or_false] at hmem
  rcases hmem with rfl | rfl <;> exact absurd hdigit.1 (by decide)

theorem zero_not_mem_numeral (n : Nat) : 0#8 ∉ decimalText n := fun hmem =>
  absurd (decimal_text_digit hmem).1 (by decide)

theorem separated_text_single (n : Nat) (sep : Byte) : separatedText sep [n] = decimalText n :=
  List.intercalate_singleton ..

/-- The text of one number more. -/
theorem separated_text_cons (hne : numbers ≠ []) (n : Nat) (sep : Byte) :
    separatedText sep (n :: numbers) = decimalText n ++ sep :: separatedText sep numbers := by
  obtain ⟨next, numbers, rfl⟩ := List.exists_cons_of_ne_nil hne
  rw [separatedText, List.map_cons, List.map_cons, List.intercalate_cons_cons, List.append_assoc,
    ← List.map_cons]
  rfl

/-- The token of the last number. -/
theorem strtok_last_number (ha : lookedAt s last = a) (hpos : a ≠ 0)
    (hd : HoldsDelims m delim dotBlank) (h : HoldsString m a (decimalText n)) :
    Returns (fun fuel => strtokR fuel s delim last m) ⟨a, 0, m⟩ := by
  have hend := h.terminated
  have htext : HoldsString m a ([] ++ decimalText n ++ []) := by rwa [List.append_nil]
  have hcall := strtok_found ha hpos hd htext (fun _ hc => absurd hc List.not_mem_nil)
    (numeral_no_delims n) (decimal_text_ne_nil n) (zero_not_mem_numeral n)
    (by rw [List.length_nil, Nat.add_zero, hend]; simp)
  simp only [List.length_nil, Nat.add_zero, hend, if_true] at hcall
  exact hcall

/-- The token of a number with others behind it. -/
theorem strtok_first_number (ha : lookedAt s last = a) (hpos : a ≠ 0)
    (hd : HoldsDelims m delim dotBlank) (hne : numbers ≠ [])
    (h : HoldsString m a (separatedText dot (n :: numbers))) :
    Returns (fun fuel => strtokR fuel s delim last m)
      ⟨a, a + (decimalText n).length + 1, Function.update m (a + (decimalText n).length) 0#8⟩ := by
  rw [separated_text_cons hne] at h
  have hdot := (HoldsString.cons_iff.mp h.behind).1
  have htext : HoldsString m a ([] ++ decimalText n ++ dot :: separatedText dot numbers) := h
  have hcall := strtok_found ha hpos hd htext (fun _ hc => absurd hc List.not_mem_nil)
    (numeral_no_delims n) (decimal_text_ne_nil n) (zero_not_mem_numeral n)
    (by rw [List.length_nil, Nat.add_zero, hdot]; rfl)
  simp only [List.length_nil, Nat.add_zero, hdot] at hcall
  exact hcall

/-! ### The numbers of an address -/

/-- One number, and the others. -/
theorem octets_succ {count : Nat} {r : Token} {bs : List Byte} {t : Nat × Bytes}
    (hcall : Returns (fun fuel => strtokR fuel s delim last m) r)
    (hbyte : Returns (fun fuel => octet fuel r.m r.tok) b)
    (hrest : Returns (fun fuel => octets fuel delim count 0 r.last r.m) (bs, t)) :
    Returns (fun fuel => octets fuel delim (count + 1) s last m) (b :: bs, t) := by
  refine hcall.bind (hbyte.bind (hrest.map fun u => (b :: u.1, u.2)) (h := fun fuel =>
    (octet fuel r.m r.tok).bind fun b => (octets fuel delim count 0 r.last r.m).map fun u =>
      (b :: u.1, u.2)) fun fuel hfuel => ?_) fun fuel hfuel => ?_
  · rw [hfuel]
    rfl
  · rw [octets, hfuel]
    rfl

/-- Without a string left the numbers are 0. -/
theorem octets_null (delim count : Nat) (m : Bytes) :
    Returns (fun fuel => octets fuel delim count 0 0 m) (List.replicate count 0#8, 0, m) := by
  induction count with
  | zero => exact Returns.pure _
  | succ count ih => exact octets_succ (strtok_null rfl) (Returns.pure _) ih

theorem octets_numbers (count : Nat) (ha : lookedAt s last = a) (hpos : a ≠ 0)
    (hd : HoldsDelims m delim dotBlank) (hne : numbers ≠ []) (hsmall : ∀ n ∈ numbers, n < 2 ^ 32)
    (h : HoldsString m a (separatedText dot numbers))
    (hfar : delim + 2 < a ∨ a + (separatedText dot numbers).length < delim) :
    ∃ last' m', Returns (fun fuel => octets fuel delim count s last m)
        (List.takeD count (numbers.map (BitVec.ofNat 8)) 0#8, last', m') ∧
      (∀ x, x < a ∨ a + (separatedText dot numbers).length ≤ x → m' x = m x) ∧
      (0 < count → HoldsString m' a (decimalText (numbers.headD 0))) := by
  induction count generalizing s a last numbers m with
  | zero => exact ⟨last, m, Returns.pure _, fun _ _ => rfl, fun hlt => absurd hlt (Nat.lt_irrefl 0)⟩
  | succ count ih =>
      obtain ⟨n, numbers, rfl⟩ := List.exists_cons_of_ne_nil hne
      have hn := hsmall n List.mem_cons_self
      by_cases hlast : numbers = []
      · subst hlast
        rw [separated_text_single] at h
        have hcall := octets_succ (strtok_last_number ha hpos hd h) (octet_numeral hpos hn h)
          (octets_null delim count m)
        refine ⟨0, m, ?_, fun _ _ => rfl, fun _ => h⟩
        rw [List.map_singleton, List.takeD_succ, List.tail_cons, List.takeD_nil]
        exact hcall
      · have hcut := strtok_first_number ha hpos hd hlast h
        have htext := separated_text_cons hlast n dot
        rw [htext] at h hfar
        rw [List.length_append, List.length_cons] at hfar
        obtain ⟨-, hbehind⟩ := HoldsString.cons_iff.mp h.behind
        have htoken := h.cut
        generalize he : a + (decimalText n).length = e at hcut hbehind htoken
        have hd' : HoldsDelims (Function.update m e 0#8) delim dotBlank :=
          ⟨hd.held.congr fun i hi => Function.update_of_ne
            (by have : dotBlank.length = 2 := rfl; omega) _ _, hd.no_null⟩
        have hrest : HoldsString (Function.update m e 0#8) (e + 1) (separatedText dot numbers) :=
          hbehind.congr fun i hi => Function.update_of_ne (by omega) _ _
        obtain ⟨last', m', hcalls, hframe, -⟩ := ih (show lookedAt 0 (e + 1) = e + 1 from rfl)
          (Nat.succ_ne_zero e) hd' hlast (fun n' hn' => hsmall n' (List.mem_cons_of_mem n hn')) hrest
          (by omega)
        refine ⟨last', m', ?_, fun x hx => ?_, fun _ => htoken.congr fun i hi => hframe _ ?_⟩
        · rw [List.map_cons, List.takeD_succ, List.tail_cons]
          exact octets_succ hcut (octet_numeral hpos hn htoken) hcalls
        · rw [htext, List.length_append, List.length_cons] at hx
          rw [hframe x (by omega), Function.update_of_ne (by omega)]
        · omega

/-- `inet_addr` on numbers with dots between them: the low bytes of the first four numbers, 0 for
those that are missing; the string is the first number afterwards. -/
theorem inet_addr_numbers (hpos : a ≠ 0) (hd : HoldsDelims m delim dotBlank) (hne : numbers ≠ [])
    (hsmall : ∀ n ∈ numbers, n < 2 ^ 32) (h : HoldsString m a (separatedText dot numbers))
    (hfar : delim + 2 < a ∨ a + (separatedText dot numbers).length < delim) (last : Nat) :
    ∃ last' m', Returns (fun fuel => inetAddr fuel delim a last m)
        (List.takeD 4 (numbers.map (BitVec.ofNat 8)) 0#8, last', m') ∧
      (∀ x, x < a ∨ a + (separatedText dot numbers).length ≤ x → m' x = m x) ∧
      HoldsString m' a (decimalText (numbers.headD 0)) := by
  obtain ⟨last', m', hcalls, hframe, hholds⟩ :=
    octets_numbers 4 (if_neg hpos) hpos hd hne hsmall h hfar
  exact ⟨last', m', hcalls, hframe, hholds (by omega)⟩

/-- The text that `sprintf` makes of four bytes: `inet_addr` returns these bytes, and a second call
on the same string returns the first of them and zeros. -/
theorem address_text_round_trip (ftoa : BitVec 64 → Nat → List Byte) (b₀ b₁ b₂ b₃ : Byte)
    (text : List Byte) (htext : User.vsprintfText ftoa addressFormat [.int (b₀.setWidth 32),
      .int (b₁.setWidth 32), .int (b₂.setWidth 32), .int (b₃.setWidth 32)] = some text)
    (m : Bytes) (delim cp last : Nat) (hcp : cp ≠ 0) (hdelim : HoldsString m delim dotBlank)
    (hheld : HoldsString m cp text) (hfar : delim + 2 < cp ∨ cp + text.length < delim) :
    ∃ last' m' last'' m'', Returns (fun fuel => inetAddr fuel delim cp last m)
        ([b₀, b₁, b₂, b₃], last', m') ∧
      Returns (fun fuel => inetAddr fuel delim cp last' m') ([b₀, 0#8, 0#8, 0#8], last'', m'') ∧
      ∀ x, x < cp ∨ cp + text.length ≤ x → m'' x = m x := by
  rw [vsprintf_address, Option.some_inj] at htext
  subst htext
  change HoldsString m cp (separatedText dot [b₀.toNat, b₁.toNat, b₂.toNat, b₃.toNat]) at hheld
  change delim + 2 < cp ∨
    cp + (separatedText dot [b₀.toNat, b₁.toNat, b₂.toNat, b₃.toNat]).length < delim at hfar
  have hsmall : ∀ bs : List Byte, ∀ n ∈ bs.map BitVec.toNat, n < 2 ^ 32 := fun bs n hn => by
    obtain ⟨b, -, rfl⟩ := List.mem_map.mp hn
    have := b.isLt
    omega
  have hnull : 0#8 ∉ dotBlank := by simp [dotBlank]
  have hfour : ∀ n ∈ [b₀.toNat, b₁.toNat, b₂.toNat, b₃.toNat], n < 2 ^ 32 := hsmall [b₀, b₁, b₂, b₃]
  have hsingle : ∀ n ∈ [b₀.toNat], n < 2 ^ 32 := hsmall [b₀]
  obtain ⟨last', m', hfirst, hframe, hheld'⟩ := inet_addr_numbers hcp ⟨hdelim, hnull⟩
    (List.cons_ne_nil _ _) hfour hheld hfar last
  -- the string has become the first number
  have hlength : (separatedText dot [b₀.toNat]).length ≤
      (separatedText dot [b₀.toNat, b₁.toNat, b₂.toNat, b₃.toNat]).length := by
    rw [separated_text_cons (List.cons_ne_nil _ _) b₀.toNat, List.length_append,
      separated_text_single]
    exact Nat.le_add_right _ _
  have hdelim' : HoldsString m' delim dotBlank := hdelim.congr fun i hi => hframe _ (by
    have : dotBlank.length = 2 := rfl
    omega)
  have hone : HoldsString m' cp (separatedText dot [b₀.toNat]) := by
    rw [separated_text_single]
    exact hheld'
  obtain ⟨last'', m'', hsecond, hframe', -⟩ := inet_addr_numbers hcp ⟨hdelim', hnull⟩
    (List.cons_ne_nil _ _) hsingle hone (by omega) last'
  simp only [List.map_cons, List.map_nil, BitVec.ofNat_toNat, BitVec.setWidth_eq] at hfirst hsecond
  refine ⟨last', m', last'', m'', hfirst, hsecond, fun x hx => ?_⟩
  change x < cp ∨ cp + (separatedText dot [b₀.toNat, b₁.toNat, b₂.toNat, b₃.toNat]).length ≤ x at hx
  rw [hframe' x (by omega), hframe x hx]

/-- The delimiters at 0x10 and `"10.0.2.15"` at 0x100. -/
def addressMemory : Bytes :=
  storeText (storeText (fun _ => 0#8) 0x10 dotBlank) 0x100 (addressText [10#8, 0#8, 2#8, 15#8])

theorem address_text_round_trip_local :
    ∃ last' m' last'' m'', Returns (fun fuel => inetAddr fuel 0x10 0x100 0 addressMemory)
        ([10#8, 0#8, 2#8, 15#8], last', m') ∧
      Returns (fun fuel => inetAddr fuel 0x10 0x100 last' m') ([10#8, 0#8, 0#8, 0#8], last'', m'') ∧
      ∀ x, x < 0x100 ∨ 0x100 + (addressText [10#8, 0#8, 2#8, 15#8]).length ≤ x →
        m'' x = addressMemory x := by
  have hdelim : HoldsString addressMemory 0x10 dotBlank :=
    (store_text_before_null rfl).congr fun i hi => store_text_outside (by
      have : dotBlank.length = 2 := rfl
      omega)
  have htext : HoldsString addressMemory 0x100 (addressText [10#8, 0#8, 2#8, 15#8]) := by
    refine store_text_before_null ?_
    rw [store_text_outside (by have : dotBlank.length = 2 := rfl; omega)]
  exact address_text_round_trip (fun _ _ => []) 10#8 0#8 2#8 15#8 _ (vsprintf_address ..)
    addressMemory 0x10 0x100 0 (by omega) hdelim htext (.inl (by omega))

end Sirius.Net
