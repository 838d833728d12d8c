import Sirius.Memory.FrameBitmap
import Sirius.Library.Runs

/-!
# Bounds of the frame allocator

Runs of `alloc_frame` and `free_frame` after `ram_setup`. `ram_setup` marks the frames from 128 MiB
to 512 MiB free and leaves the rest of `RAM_BITMAP` as it finds it, but `alloc_frame` scans
`512 * 1024 / 4` bytes of the bitmap, eight times as many frames. `FrameAccount` says which bits
are set in a run; `frame_allocator_bounds` says when the two limits do not matter.
-/

namespace Sirius.Memory

open Library

/-- The frames that `ram_setup` marks free, 128 MiB to 512 MiB. -/
def InitialisedFree (f : Nat) : Prop := 4096 * 8 ≤ f ∧ f < (4096 + 12288) * 8

/-- The frames behind the initialised part of the bitmap that `alloc_frame` scans all the same. -/
def BehindInitialised (f : Nat) : Prop := (4096 + 12288) * 8 ≤ f ∧ f < 512 * 1024 / 4 * 8

/-- A call of the frame allocator. -/
inductive FrameCall where
  | alloc
  | free (addr : Nat)

/-- Only frames that are outstanding are freed. -/
def FrameCall.Allowed : Mm × List Nat → FrameCall → Prop
  | _, .alloc => True
  | (_, out), .free addr => addr ∈ out

/-- A call together with the list of outstanding frames. -/
inductive FrameStep : Mm × List Nat → FrameCall → Mm × List Nat → Prop where
  | alloc (s s' : Mm) (out : List Nat) (addr : Nat) :
      allocFrame s = (addr, s') →
      FrameStep (s, out) .alloc (s', if addr = 0 then out else addr :: out)
  | free (s s' : Mm) (out : List Nat) (addr result : Nat) :
      freeFrame s addr = (result, s') → FrameStep (s, out) (.free addr) (s', out.erase addr)

/-- The runs of the frame allocator after `ram_setup`. -/
def FrameRun (s₀ s : Mm) (out : List Nat) : Prop :=
  Run FrameStep FrameCall.Allowed (ramSetup s₀, []) (s, out)

/-- The next call of `alloc_frame` returns an aligned frame of the initialised range that is not
outstanding, or 0 exactly when the whole range is outstanding. -/
structure AllocFrameSound (s : Mm) (out : List Nat) : Prop where
  aligned : (allocFrame s).1 ≠ 0 → (allocFrame s).1 % 0x1000 = 0
  range : (allocFrame s).1 ≠ 0 →
    128 * 1024 * 1024 ≤ (allocFrame s).1 ∧ (allocFrame s).1 < 512 * 1024 * 1024
  fresh : (allocFrame s).1 ≠ 0 → (allocFrame s).1 ∉ out
  zero : (allocFrame s).1 = 0 ↔ ∀ f, InitialisedFree f → f * 0x1000 ∈ out

/-- A frame of the initialised range is not outstanding. -/
def InitialisedLeft (out : List Nat) : Prop := ∃ f, InitialisedFree f ∧ f * 0x1000 ∉ out

/-- No bit is clear behind the initialised part of the bitmap. -/
def NoneBehind (s : Mm) : Prop := ∀ f, BehindInitialised f → frameBit s.ramBitmap f = true

/-! ### The bits in a run -/

section Setup

variable (s₀ : Mm) {f : Nat}

theorem setup_bit_initialised (hf : InitialisedFree f) :
    frameBit (ramSetup s₀).ramBitmap f = false := by
  obtain ⟨hlow, hhigh⟩ := hf
  have hbyte : (ramSetup s₀).ramBitmap (f / 8) = 0#8 := if_pos ⟨by omega, by omega⟩
  rw [frameBit, hbyte]
  exact BitVec.getLsbD_zero

theorem setup_bit_behind (hf : BehindInitialised f) :
    frameBit (ramSetup s₀).ramBitmap f = frameBit s₀.ramBitmap f := by
  have hlow := hf.1
  have hbyte : (ramSetup s₀).ramBitmap (f / 8) = s₀.ramBitmap (f / 8) := by
    have hinner : fillBytes s₀.ramBitmap 0 (128 * 1024 / 4 / 8) 0xff#8 (f / 8) =
        s₀.ramBitmap (f / 8) := if_neg (by omega)
    exact (if_neg (by omega)).trans hinner
  rw [frameBit, hbyte, frameBit]

end Setup

theorem initialised_range {f : Nat} (hf : InitialisedFree f) : FrameRange f := by
  unfold InitialisedFree FrameRange at *
  omega

theorem behind_range {f : Nat} (hf : BehindInitialised f) : FrameRange f := by
  unfold BehindInitialised FrameRange at *
  omega

/-- The bits of the scanned frames: those set at the start and those of outstanding frames. -/
structure FrameAccount (start : Bytes) (s : Mm) (out : List Nat) : Prop where
  nodup : out.Nodup
  owned : ∀ addr ∈ out, ∃ f, addr = f * 0x1000 ∧ FrameRange f ∧ frameBit start f = false
  bits : ∀ f, FrameRange f →
    (frameBit s.ramBitmap f = true ↔ f * 0x1000 ∈ out ∨ frameBit start f = true)

/-- Taking the first free frame. -/
theorem FrameAccount.take {start : Bytes} {s : Mm} {out : List Nat}
    (h : FrameAccount start s out) {f : Nat} (hf : FirstFreeFrame s.ramBitmap f) :
    FrameAccount start { s with ramBitmap := setFrame s.ramBitmap f } (f * 0x1000 :: out) := by
  have hclear : ¬ (f * 0x1000 ∈ out ∨ frameBit start f = true) := by
    rw [← h.bits f hf.range, hf.clear]
    exact Bool.false_ne_true
  obtain ⟨hout, hstart⟩ := not_or.mp hclear
  constructor
  · exact List.nodup_cons.mpr ⟨hout, h.nodup⟩
  · intro addr haddr
    rcases List.mem_cons.mp haddr with rfl | haddr
    · exact ⟨f, rfl, hf.range, Bool.eq_false_iff.mpr hstart⟩
    · exact h.owned addr haddr
  · intro g hg
    show frameBit (setFrame s.ramBitmap f) g = true ↔ _
    rw [frame_bit_set, Bool.or_eq_true, decide_eq_true_eq, h.bits g hg, List.mem_cons, or_assoc]
    have hsame : g * 0x1000 = f * 0x1000 ↔ g = f := by omega
    rw [hsame]

/-- Releasing an outstanding frame. -/
theorem FrameAccount.release {start : Bytes} {s s' : Mm} {out : List Nat} {addr result : Nat}
    (h : FrameAccount start s out) (haddr : addr ∈ out)
    (hfree : freeFrame s addr = (result, s')) : FrameAccount start s' (out.erase addr) := by
  obtain ⟨f, rfl, hf, hstart⟩ := h.owned addr haddr
  have haddress : f <<< 12 % 2 ^ 40 = f * 0x1000 := by
    have := hf.2
    rw [Nat.shiftLeft_eq]
    omega
  have hs' : s' = { s with ramBitmap := clearFrame s.ramBitmap f } := by
    rw [← free_frame_eq s hf, haddress, hfree]
  constructor
  · exact h.nodup.erase _
  · intro other hother
    exact h.owned other (List.mem_of_mem_erase hother)
  · intro g hg
    rw [hs']
    show frameBit (clearFrame s.ramBitmap f) g = true ↔ _
    have hsame : g * 0x1000 = f * 0x1000 ↔ g = f := by omega
    rw [frame_bit_clear, Bool.and_eq_true, Bool.not_eq_true', decide_eq_false_iff_not,
      h.bits g hg, h.nodup.mem_erase_iff, Ne, hsame]
    constructor
    · rintro ⟨hne, hout | hset⟩
      · exact .inl ⟨hne, hout⟩
      · exact .inr hset
    · rintro (⟨hne, hout⟩ | hset)
      · exact ⟨hne, .inl hout⟩
      · refine ⟨?_, .inr hset⟩
        rintro rfl
        rw [hstart] at hset
        exact Bool.false_ne_true hset

/-- The account holds in every state of a run. -/
theorem frame_run_account {s₀ s : Mm} {out : List Nat} (hrun : FrameRun s₀ s out) :
    FrameAccount (ramSetup s₀).ramBitmap s out := by
  refine Run.invariant (fun state => FrameAccount (ramSetup s₀).ramBitmap state.1 state.2) hrun
    ⟨List.nodup_nil, by simp, by simp⟩ ?_
  intro state call next h hallowed hstep
  cases hstep with
  | alloc s s' out addr halloc =>
      rcases alloc_frame_first s with ⟨f, hf, heq⟩ | ⟨-, heq⟩
      · rw [heq] at halloc
        obtain ⟨rfl, rfl⟩ := Prod.mk.inj halloc
        have hzero : f * 0x1000 ≠ 0 := by
          have := hf.range.1
          omega
        rw [if_neg hzero]
        exact h.take hf
      · rw [heq] at halloc
        obtain ⟨rfl, rfl⟩ := Prod.mk.inj halloc
        exact h
  | free s s' out addr result hfree => exact h.release hallowed hfree

/-! ### The result of the next call -/

/-- The next call meets its bounds exactly when a frame of the initialised range is left, or no
clear bit behind it is left. -/
theorem FrameAccount.sound_iff {start : Bytes} {s : Mm} {out : List Nat}
    (h : FrameAccount start s out)
    (hstart : ∀ f, InitialisedFree f → frameBit start f = false) :
    AllocFrameSound s out ↔ InitialisedLeft out ∨ NoneBehind s := by
  have hout : ∀ f, InitialisedFree f →
      (frameBit s.ramBitmap f = true ↔ f * 0x1000 ∈ out) := by
    intro f hf
    rw [h.bits f (initialised_range hf), hstart f hf]
    exact or_iff_left Bool.false_ne_true
  rcases alloc_frame_first s with ⟨f, hf, heq⟩ | ⟨hfull, heq⟩
  · have hpositive : f * 0x1000 ≠ 0 := by
      have := hf.range.1
      omega
    have hfresh : f * 0x1000 ∉ out := fun hmem => by
      have hbit := (h.bits f hf.range).mpr (.inl hmem)
      rw [hf.clear] at hbit
      exact Bool.false_ne_true hbit
    by_cases hin : InitialisedFree f
    · refine ⟨fun _ => .inl ⟨f, hin, hfresh⟩, fun _ => ?_⟩
      obtain ⟨hlow, hhigh⟩ := hin
      constructor <;> rw [heq]
      · intro _
        show f * 0x1000 % 0x1000 = 0
        omega
      · intro _
        show 128 * 1024 * 1024 ≤ f * 0x1000 ∧ f * 0x1000 < 512 * 1024 * 1024
        omega
      · exact fun _ => hfresh
      · exact ⟨fun hzero => absurd hzero hpositive,
          fun hall => absurd (hall f ⟨hlow, hhigh⟩) hfresh⟩
    · -- the first free frame lies behind the initialised range, which is all outstanding
      have hbehind : BehindInitialised f := by
        have := hf.range
        unfold FrameRange InitialisedFree BehindInitialised at *
        omega
      have hall : ∀ g, InitialisedFree g → g * 0x1000 ∈ out := by
        intro g hg
        refine (hout g hg).mp (hf.least g (initialised_range hg) ?_)
        have := hg.2
        have := hbehind.1
        omega
      constructor
      · intro hsound
        refine absurd (hsound.zero.mpr hall) ?_
        rw [heq]
        exact hpositive
      · rintro (⟨g, hg, hleft⟩ | hnone)
        · exact absurd (hall g hg) hleft
        · have hset := hnone f hbehind
          rw [hf.clear] at hset
          exact absurd hset Bool.false_ne_true
  · refine ⟨fun _ => .inr fun f hf => hfull f (behind_range hf), fun _ => ?_⟩
    have hall : ∀ f, InitialisedFree f → f * 0x1000 ∈ out := fun f hf =>
      (hout f hf).mp (hfull f (initialised_range hf))
    constructor <;> rw [heq]
    · exact fun hne => absurd rfl hne
    · exact fun hne => absurd rfl hne
    · exact fun hne => absurd rfl hne
    · exact ⟨fun _ => hall, fun _ => rfl⟩

/-! ### Taking every frame -/

/-- After `n` allocations and no free, the first `n` frames of the range are outstanding. -/
theorem frame_run_take (s₀ : Mm) (n : Nat) (hn : n ≤ 12288 * 8) :
    ∃ s out, FrameRun s₀ s out ∧
      ∀ f, f * 0x1000 ∈ out ↔ 4096 * 8 ≤ f ∧ f < 4096 * 8 + n := by
  induction n with
  | zero =>
      refine ⟨ramSetup s₀, [], Run.refl, fun f => ?_⟩
      simp only [List.not_mem_nil, false_iff]
      omega
  | succ n ih =>
      obtain ⟨s, out, hrun, hout⟩ := ih (by omega)
      have haccount := frame_run_account hrun
      have hbits : ∀ f, InitialisedFree f →
          (frameBit s.ramBitmap f = true ↔ f < 4096 * 8 + n) := by
        intro f hf
        rw [haccount.bits f (initialised_range hf), setup_bit_initialised s₀ hf, hout]
        have := hf.1
        simp only [Bool.false_eq_true, or_false]
        omega
      have hnext : InitialisedFree (4096 * 8 + n) := ⟨by omega, by omega⟩
      have hfirst : FirstFreeFrame s.ramBitmap (4096 * 8 + n) := by
        refine ⟨initialised_range hnext, ?_, fun g hg hlt => ?_⟩
        · exact Bool.eq_false_iff.mpr fun hset => absurd ((hbits _ hnext).mp hset) (lt_irrefl _)
        · exact (hbits g ⟨hg.1, by omega⟩).mpr hlt
      have hpositive : (4096 * 8 + n) * 0x1000 ≠ 0 := by omega
      have hstep := FrameStep.alloc s _ out _ (alloc_frame_of_first hfirst)
      rw [if_neg hpositive] at hstep
      refine ⟨_, _, Run.snoc hrun .alloc trivial hstep, fun g => ?_⟩
      rw [List.mem_cons, hout]
      omega

/-- A run in which every frame of the initialised range is outstanding. -/
theorem frame_run_all (s₀ : Mm) :
    ∃ s out, FrameRun s₀ s out ∧ ∀ f, f * 0x1000 ∈ out ↔ InitialisedFree f := by
  obtain ⟨s, out, hrun, hout⟩ := frame_run_take s₀ (12288 * 8) le_rfl
  refine ⟨s, out, hrun, fun f => ?_⟩
  rw [hout]
  unfold InitialisedFree
  omega

/-- With every frame of the initialised range outstanding, the bits behind it are as they were
before `ram_setup`. -/
theorem none_behind_iff {s₀ s : Mm} {out : List Nat} (hrun : FrameRun s₀ s out)
    (hout : ∀ f, f * 0x1000 ∈ out → InitialisedFree f) : NoneBehind s ↔ NoneBehind s₀ := by
  have hbits : ∀ f, BehindInitialised f →
      (frameBit s.ramBitmap f = true ↔ frameBit s₀.ramBitmap f = true) := by
    intro f hf
    have hnot : f * 0x1000 ∉ out := fun hmem => by
      have := (hout f hmem).2
      have := hf.1
      omega
    rw [(frame_run_account hrun).bits f (behind_range hf), setup_bit_behind s₀ hf]
    exact or_iff_right hnot
  exact ⟨fun h f hf => (hbits f hf).mp (h f hf), fun h f hf => (hbits f hf).mpr (h f hf)⟩

/-- Bits behind the initialised part that are set before `ram_setup` stay set. -/
theorem none_behind_run {s₀ s : Mm} {out : List Nat} (hrun : FrameRun s₀ s out)
    (h : NoneBehind s₀) : NoneBehind s := by
  intro f hf
  rw [(frame_run_account hrun).bits f (behind_range hf), setup_bit_behind s₀ hf]
  exact .inr (h f hf)

/-- The bounds of the frame allocator over whole runs. In every state a run reaches, the next call
of `alloc_frame` meets its bounds exactly when a frame of the initialised range is left or no bit
is clear behind that range; and the bounds are met in all runs exactly when the bits behind the
range were all set before `ram_setup`. -/
theorem frame_allocator_bounds (s₀ : Mm) :
    (∀ s out, FrameRun s₀ s out →
      (AllocFrameSound s out ↔ InitialisedLeft out ∨ NoneBehind s)) ∧
    ((∀ s out, FrameRun s₀ s out → AllocFrameSound s out) ↔ NoneBehind s₀) := by
  have hsound : ∀ s out, FrameRun s₀ s out →
      (AllocFrameSound s out ↔ InitialisedLeft out ∨ NoneBehind s) := fun s out hrun =>
    (frame_run_account hrun).sound_iff fun f hf => setup_bit_initialised s₀ hf
  refine ⟨hsound, fun hall => ?_, fun hnone s out hrun =>
    (hsound s out hrun).mpr (.inr (none_behind_run hrun hnone))⟩
  obtain ⟨s, out, hrun, hout⟩ := frame_run_all s₀
  rcases (hsound s out hrun).mp (hall s out hrun) with ⟨f, hf, hleft⟩ | hnone
  · exact absurd ((hout f).mpr hf) hleft
  · exact (none_behind_iff hrun fun f => (hout f).mp).mp hnone

/-- With clear memory, the call after the last frame of the range returns the frame at 512 MiB. -/
theorem alloc_frame_behind_512_mib :
    ∃ s out, FrameRun clearMachine s out ∧ (∀ f, InitialisedFree f → f * 0x1000 ∈ out) ∧
      (allocFrame s).1 = 512 * 1024 * 1024 ∧ ¬ AllocFrameSound s out := by
  obtain ⟨s, out, hrun, hout⟩ := frame_run_all clearMachine
  have haccount := frame_run_account hrun
  have hall : ∀ f, InitialisedFree f → f * 0x1000 ∈ out := fun f hf => (hout f).mpr hf
  have hfirst : FirstFreeFrame s.ramBitmap ((4096 + 12288) * 8) := by
    have hbehind : BehindInitialised ((4096 + 12288) * 8) := ⟨le_rfl, by norm_num⟩
    refine ⟨behind_range hbehind, ?_, fun g hg hlt => ?_⟩
    · refine Bool.eq_false_iff.mpr fun hset => ?_
      rw [haccount.bits _ (behind_range hbehind), setup_bit_behind _ hbehind] at hset
      rcases hset with hmem | hset
      · exact absurd ((hout _).mp hmem).2 (lt_irrefl _)
      · exact absurd hset (by decide)
    · exact (haccount.bits g hg).mpr (.inl (hall g ⟨hg.1, hlt⟩))
  have hresult : (allocFrame s).1 = 512 * 1024 * 1024 := by
    rw [alloc_frame_of_first hfirst]
  refine ⟨s, out, hrun, hall, hresult, fun hsound => ?_⟩
  have hrange := (hsound.range (by rw [hresult]; norm_num)).2
  rw [hresult] at hrange
  exact lt_irrefl _ hrange

end Sirius.Memory
