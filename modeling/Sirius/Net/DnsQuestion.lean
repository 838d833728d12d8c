import Mathlib.Tactic
import Sirius.Library.Labels
import Sirius.Net.Checksum

/-!
# The question of a DNS query

`get_ip_from_name` of `user/lib/sys/net/dns.c` copies the text of the host name one byte behind the
header of the query, and `changeto_dns_name_format` turns it into length-prefixed labels where it
lies: the length of a label goes to the byte in front of it, which is the dot for all labels but
the first one.
-/

namespace Sirius.Net

open Library

/-- The character between two labels. -/
def dot : Byte := 0x2e#8

/-- The loop of `changeto_dns_name_format` with `left` rounds to go, and the two writes behind
it. -/
def labelLoop (name size : Nat) : (left i position n : Nat) → Bytes → Bytes
  | 0, _, position, n, m =>
      let m := Function.update m (name + position) (BitVec.ofNat 8 n)
      Function.update m (name + (size + 1)) 0#8
  | left + 1, i, position, n, m =>
      if m (name + 1 + i) = 0#8 then m
      else if m (name + 1 + i) = dot then
        labelLoop name size left (i + 1) (i + 1) 0
          (Function.update m (name + position) (BitVec.ofNat 8 n))
      else labelLoop name size left (i + 1) position (n + 1) m

/-- `changeto_dns_name_format` -/
def changetoDnsNameFormat (name size : Nat) (m : Bytes) : Bytes := labelLoop name size size 0 0 0 m

/-- The header of the query, at the start of the block. -/
def dnsHeader (m : Bytes) : Bytes :=
  let m := putHalf m 0 (htons 0x1234#16)
  let m := putHalf m 2 (htons 0x0100#16)
  let m := putHalf m 4 (htons 1#16)
  let m := putHalf m 6 (htons 0#16)
  let m := putHalf m 8 (htons 0#16)
  putHalf m 10 (htons 0#16)

/-- The question of `get_ip_from_name`, behind the header. -/
def dnsQuestion (name : List Byte) (queryType : BitVec 32) (m : Bytes) : Bytes :=
  let nameSize := name.length
  let query := 12
  let m := copyBytes m (query + 1) (fun i => name.getD i 0#8) 0 nameSize
  let m := changetoDnsNameFormat query nameSize m
  let query := query + (nameSize + 2)
  let m := putHalf m query (htons (queryType.setWidth 16))
  let query := query + 2
  putHalf m query (htons 1#16)

/-- The query that `get_ip_from_name` sends, in the block it allocated. -/
def dnsQuery (name : List Byte) (queryType : BitVec 32) (m : Bytes) : Bytes :=
  dnsQuestion name queryType (dnsHeader m)

/-- `dns_size` of `get_ip_from_name`: the bytes that are sent. -/
def dnsSize (name : List Byte) : Nat := 12 + name.length + 6

/-- A 16-bit value in network order. -/
def netHalf (v : BitVec 16) : List Byte := [BitVec.ofNat 8 (v.toNat / 2 ^ 8), BitVec.ofNat 8 v.toNat]

/-- The text of a label. -/
def IsHostLabel (label : List Byte) : Prop := IsLabel label ∧ dot ∉ label ∧ 0#8 ∉ label

instance (label : List Byte) : Decidable (IsHostLabel label) :=
  inferInstanceAs (Decidable (_ ∧ _))

variable {m : Bytes} {name size left i position n : Nat} {label : List Byte}
  {labels : List (List Byte)} {text : List Byte}

/-! ### The loop -/

/-- The loop counts the characters of a label. -/
theorem label_loop_scan (len : Nat)
    (h : ∀ k < len, m (name + 1 + i + k) ≠ 0#8 ∧ m (name + 1 + i + k) ≠ dot) :
    labelLoop name size (len + left) i position n m =
      labelLoop name size left (i + len) position (n + len) m := by
  induction len generalizing i n with
  | zero => rw [Nat.zero_add, Nat.add_zero, Nat.add_zero]
  | succ len ih =>
      have hrest : ∀ k < len, m (name + 1 + (i + 1) + k) ≠ 0#8 ∧
          m (name + 1 + (i + 1) + k) ≠ dot := fun k hk => by
        have := h (k + 1) (by omega)
        rwa [show name + 1 + i + (k + 1) = name + 1 + (i + 1) + k by omega] at this
      have hfirst := h 0 (Nat.succ_pos len)
      rw [Nat.add_zero] at hfirst
      rw [show len + 1 + left = len + left + 1 by omega, labelLoop, if_neg hfirst.1,
        if_neg hfirst.2, ih hrest, show i + 1 + len = i + (len + 1) by omega,
        show n + 1 + len = n + (len + 1) by omega]

/-- The characters of a label where it lies. -/
theorem label_scan_chars (hlabel : IsHostLabel label)
    (htext : slice m (name + 1 + i) label.length = label) :
    ∀ k < label.length, m (name + 1 + i + k) ≠ 0#8 ∧ m (name + 1 + i + k) ≠ dot := by
  intro k hk
  have hmem : m (name + 1 + i + k) ∈ label := by
    rw [← htext]
    exact List.mem_map.mpr ⟨k, List.mem_range.mpr hk, rfl⟩
  exact ⟨fun h => hlabel.2.2 (h ▸ hmem), fun h => hlabel.2.1 (h ▸ hmem)⟩

/-- The two parts of a text where it lies. -/
theorem slice_append_parts {a : Nat} {s t : List Byte}
    (h : slice m a (s ++ t).length = s ++ t) :
    slice m a s.length = s ∧ slice m (a + s.length) t.length = t := by
  rw [List.length_append, slice_add] at h
  exact List.append_inj h (slice_length ..)

/-- The length and the characters of a label in front of what follows. -/
theorem slice_label {a len : Nat} (rest : Nat) (hchars : slice m (a + 1) label.length = label)
    (hlen : len = label.length + rest) :
    slice m a (len + 1) = m a :: label ++ slice m (a + 1 + label.length) rest := by
  have hfirst : slice m a 1 = [m a] := rfl
  rw [hlen, Nat.add_comm, slice_add, slice_add, hfirst, hchars, List.singleton_append,
    List.cons_append]

/-- From the start of a label on, the loop writes the labels that are left. -/
theorem label_loop_eq (hne : labels ≠ []) (hlabels : ∀ label ∈ labels, IsHostLabel label)
    (hsize : size = i + ([dot].intercalate labels).length)
    (htext : slice m (name + i + 1) ([dot].intercalate labels).length =
      [dot].intercalate labels) :
    slice (labelLoop name size ([dot].intercalate labels).length i i 0 m) (name + i)
        (([dot].intercalate labels).length + 2) = encodeLabels labels ∧
      ∀ j, j < name + i ∨ name + size + 2 ≤ j →
        labelLoop name size ([dot].intercalate labels).length i i 0 m j = m j := by
  have hat : name + i + 1 = name + 1 + i := Nat.add_right_comm name i 1
  induction labels generalizing i m with
  | nil => exact absurd rfl hne
  | cons label labels ih =>
      have hlabel := hlabels label List.mem_cons_self
      cases labels with
      | nil =>
          -- the last label: its length, and the zero byte behind it
          rw [List.intercalate_singleton] at hsize htext ⊢
          have hscan := @label_loop_scan m name size 0 i i 0 label.length
            (label_scan_chars hlabel (hat ▸ htext))
          rw [Nat.add_zero, Nat.zero_add, labelLoop] at hscan
          rw [hscan]
          constructor
          · have hchars : slice (Function.update (Function.update m (name + i)
                (BitVec.ofNat 8 label.length)) (name + (size + 1)) 0#8) (name + i + 1)
                label.length = label := by
              refine (slice_congr fun k hk => ?_).trans htext
              rw [Function.update_of_ne (by omega), Function.update_of_ne (by omega)]
            rw [slice_label 1 hchars rfl, Function.update_of_ne (by omega),
              Function.update_self]
            have hend : name + i + 1 + label.length = name + (size + 1) := by omega
            have hzero : slice (Function.update (Function.update m (name + i)
                (BitVec.ofNat 8 label.length)) (name + (size + 1)) 0#8) (name + (size + 1)) 1 =
                [0#8] := congrArg (fun b => [b]) (Function.update_self ..)
            rw [hend, hzero]
            simp [encodeLabels, labelBytes]
          · intro j hj
            rw [Function.update_of_ne (by omega), Function.update_of_ne (by omega)]
      | cons next labels =>
          -- the dot behind the label is the place of the next length
          have hih := fun m' => @ih m' (i + label.length + 1)
          rw [List.intercalate_cons_cons, List.append_assoc] at hsize htext ⊢
          generalize [dot].intercalate (next :: labels) = text at hih hsize htext ⊢
          have hlen : (label ++ ([dot] ++ text)).length = label.length + (text.length + 1) := by
            simp
          obtain ⟨hchars, hbehind⟩ := slice_append_parts htext
          obtain ⟨hdot, hnext⟩ := slice_append_parts hbehind
          have hdot' : m (name + 1 + (i + label.length)) = dot := by
            have : m (name + i + 1 + label.length) = dot := List.head_eq_of_cons_eq hdot
            rwa [show name + 1 + (i + label.length) = name + i + 1 + label.length by omega]
          have hscan := @label_loop_scan m name size (text.length + 1) i i 0 label.length
            (label_scan_chars hlabel (hat ▸ hchars))
          rw [Nat.zero_add, labelLoop, if_neg (by rw [hdot']; decide), if_pos hdot'] at hscan
          rw [hlen] at hsize ⊢
          rw [hscan]
          generalize hm' : Function.update m (name + i) (BitVec.ofNat 8 label.length) = m'
          have hsame : ∀ j, j ≠ name + i → m' j = m j := fun j hj => by
            rw [← hm', Function.update_of_ne hj]
          obtain ⟨hrest, hout⟩ := hih m' (List.cons_ne_nil _ _)
            (fun l hl => hlabels l (List.mem_cons_of_mem _ hl)) (by omega)
            ((slice_congr fun k hk => by
              rw [hsame _ (by omega)]
              exact congrArg m (by simp; omega)).trans hnext) (by omega)
          generalize labelLoop name size text.length (i + label.length + 1) (i + label.length + 1)
            0 m' = m'' at hrest hout ⊢
          constructor
          · have hchars' : slice m'' (name + i + 1) label.length = label :=
              (slice_congr fun k hk => by
                rw [hout _ (by omega), hsame _ (by omega)]).trans hchars
            have hlength : m'' (name + i) = BitVec.ofNat 8 label.length := by
              rw [hout _ (by omega), ← hm', Function.update_self]
            rw [slice_label (text.length + 2) hchars' (by omega), hlength,
              show name + i + 1 + label.length = name + (i + label.length + 1) by omega, hrest,
              encode_labels_cons label]
          · intro j hj
            rw [hout j (by omega), hsame j (by omega)]

/-! ### The question -/

/-- A 16-bit field in network order. -/
theorem slice_put_half (m : Bytes) (a : Nat) (v : BitVec 16) :
    slice (putHalf m a (htons v)) a 2 = netHalf v := by
  obtain ⟨hhigh, hlow⟩ := half_bytes (@half_put_half_same m a (htons v))
  have hpair : slice (putHalf m a (htons v)) a 2 =
    [putHalf m a (htons v) a, putHalf m a (htons v) (a + 1)] := rfl
  rw [hpair, hhigh, hlow, netHalf]

theorem put_half_outside {a i : Nat} {v : BitVec 16} (h : i < a ∨ a + 2 ≤ i) :
    putHalf m a v i = m i := write_half_outside h

/-- Two 16-bit fields in a row. -/
theorem slice_put_halves (m : Bytes) (a : Nat) (v w : BitVec 16) :
    slice (putHalf (putHalf m a (htons v)) (a + 2) (htons w)) a 4 = netHalf v ++ netHalf w := by
  have hfirst : slice (putHalf (putHalf m a (htons v)) (a + 2) (htons w)) a 2 = netHalf v :=
    (slice_congr fun k hk => put_half_outside (by omega)).trans (slice_put_half m a v)
  rw [slice_add _ a 2 2, hfirst, slice_put_half]

/-- A text that was copied. -/
theorem slice_copy_text (m : Bytes) (pos : Nat) (text : List Byte) :
    slice (copyBytes m pos (fun i => text.getD i 0#8) 0 text.length) pos text.length = text := by
  refine List.ext_getElem (slice_length ..) fun k hk htext => ?_
  have hcopied : copyBytes m pos (fun i => text.getD i 0#8) 0 text.length (pos + k) =
      text.getD k 0#8 := copy_bytes_start htext
  simp only [slice, List.getElem_map, List.getElem_range, hcopied]
  rw [List.getD_eq_getElem?_getD, List.getElem?_eq_getElem htext, Option.getD_some]

/-- `changeto_dns_name_format` on the text of a name. -/
theorem changeto_dns_name_format_eq (hne : labels ≠ [])
    (hlabels : ∀ label ∈ labels, IsHostLabel label)
    (htext : slice m (name + 1) ([dot].intercalate labels).length = [dot].intercalate labels) :
    slice (changetoDnsNameFormat name ([dot].intercalate labels).length m) name
        (([dot].intercalate labels).length + 2) = encodeLabels labels ∧
      ∀ j, j < name ∨ name + ([dot].intercalate labels).length + 2 ≤ j →
        changetoDnsNameFormat name ([dot].intercalate labels).length m j = m j :=
  label_loop_eq hne hlabels (Nat.zero_add _).symm htext

/-- What `dnsQuestion` writes, and what it leaves alone. -/
theorem dns_question_bytes {queryType : BitVec 32} (hne : labels ≠ [])
    (hlabels : ∀ label ∈ labels, IsHostLabel label) (hname : text = [dot].intercalate labels) :
    slice (dnsQuestion text queryType m) 12 (text.length + 6) =
        encodeLabels labels ++ (netHalf (queryType.setWidth 16) ++ netHalf 1#16) ∧
      ∀ i, i < 12 ∨ dnsSize text ≤ i → dnsQuestion text queryType m i = m i := by
  have hcopy := slice_copy_text m 13 text
  have hcopied : ∀ i, i < 12 ∨ dnsSize text ≤ i →
      copyBytes m 13 (fun i => text.getD i 0#8) 0 text.length i = m i := fun i hi =>
    copy_bytes_outside (by unfold dnsSize at hi; omega)
  generalize hm₁ : copyBytes m 13 (fun i => text.getD i 0#8) 0 text.length = m₁ at hcopy hcopied
  obtain ⟨hencoded, houtside⟩ := @changeto_dns_name_format_eq m₁ 12 labels hne hlabels
    (by rw [← hname]; exact hcopy)
  rw [← hname] at hencoded houtside
  generalize hm₂ : changetoDnsNameFormat 12 text.length m₁ = m₂ at hencoded houtside
  have hquestion : dnsQuestion text queryType m =
      putHalf (putHalf m₂ (12 + (text.length + 2)) (htons (queryType.setWidth 16)))
        (12 + (text.length + 2) + 2) (htons 1#16) := by
    rw [← hm₂, ← hm₁]
    rfl
  constructor
  · have hname' : slice (dnsQuestion text queryType m) 12 (text.length + 2) =
        encodeLabels labels :=
      (slice_congr fun k hk => by
        rw [hquestion, put_half_outside (by omega), put_half_outside (by omega)]).trans hencoded
    rw [show text.length + 6 = text.length + 2 + 4 from rfl, slice_add, hname', hquestion,
      slice_put_halves]
  · intro i hi
    have hi' := hi
    unfold dnsSize at hi'
    rw [hquestion, put_half_outside (by omega), put_half_outside (by omega),
      houtside i (by omega), hcopied i hi]

/-- The question that is sent is the name as length-prefixed labels, the type and the class, so
reading the labels gives the name back; nothing outside the question is written. -/
theorem dns_question_encodes {queryType : BitVec 32} (hne : labels ≠ [])
    (hlabels : ∀ label ∈ labels, IsHostLabel label) (hname : text = [dot].intercalate labels) :
    slice (dnsQuery text queryType m) 12 (dnsSize text - 12) =
        encodeLabels labels ++ (netHalf (queryType.setWidth 16) ++ netHalf 1#16) ∧
      (∀ fuel, labels.length < fuel →
        decodeLabels fuel (slice (dnsQuery text queryType m) 12 (dnsSize text - 12)) =
          some (labels, netHalf (queryType.setWidth 16) ++ netHalf 1#16)) ∧
      ∀ i, i < 12 ∨ dnsSize text ≤ i → dnsQuery text queryType m i = dnsHeader m i := by
  obtain ⟨hbytes, houtside⟩ := @dns_question_bytes (dnsHeader m) labels text queryType hne hlabels
    hname
  have hsize : dnsSize text - 12 = text.length + 6 := by
    unfold dnsSize
    omega
  rw [hsize]
  refine ⟨hbytes, fun fuel hfuel => ?_, houtside⟩
  rw [dnsQuery, hbytes]
  exact decode_encode_labels _ (fun label hlabel => (hlabels label hlabel).1) hfuel

/-- The labels of `a.bc` in a query for an address. -/
theorem dns_question_encodes_two :
    decodeLabels 3 (slice (dnsQuery [0x61#8, 0x2e#8, 0x62#8, 0x63#8] 1#32 fun _ => 0#8) 12 10) =
      some ([[0x61#8], [0x62#8, 0x63#8]], [0#8, 1#8, 0#8, 1#8]) :=
  (@dns_question_encodes (fun _ => 0#8) [[0x61#8], [0x62#8, 0x63#8]] _ 1#32 (List.cons_ne_nil _ _)
    (by decide) rfl).2.1 3 (by decide)

end Sirius.Net
