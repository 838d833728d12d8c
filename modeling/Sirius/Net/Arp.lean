import Mathlib.Tactic
import Sirius.Library.AppendLog
import Sirius.Library.Runs
import Sirius.Net.Wire

/-!
# The ARP cache

`arp_save_address` looks for the same pair of addresses, skipping records whose IP address starts
with 0, and otherwise fills the first free record; it never changes a record. So the cache is a
table with an append-only log of the pairs, and a lookup finds the first pair of an address.

`get_hardwere_ethernet` counts its attempts in `n`, which is never decremented.
-/

namespace Sirius.Net

open Library

/-- The address of a free record. -/
def noIp : Ip := fun _ => 0#8

/-- The cache after `init_arp`, which also asks for the router. -/
def initArp (eth : Ethernet) : Ethernet :=
  arpRequest eth.routerIp everyone { eth with arpCache := fun _ => ⟨fun _ => 0#8, noIp⟩ }

/-- A call of `arp_save_address` with an address other than 0.0.0.0. -/
structure ArpSave where
  ip : Ip
  mac : Mac
  nonzero : ip ≠ noIp
  deriving DecidableEq

/-- The state after some calls. -/
def saveAll (eth : Ethernet) (saves : List ArpSave) : Ethernet :=
  saves.foldl (fun eth save => arpSaveAddress save.ip save.mac eth) eth

/-- A lookup. -/
def Ethernet.lookup (eth : Ethernet) (ip : Ip) : Option Mac := arpCacheGetAddress ip eth.arpCache

/-- The hardware address that was saved last for an address. -/
def lastSaved (saves : List ArpSave) (ip : Ip) : Option Mac :=
  (saves.reverse.find? fun save => ip = save.ip).map ArpSave.mac

/-- Every address that was saved is looked up with its last hardware address. -/
def LookupsLatest (eth : Ethernet) (saves : List ArpSave) : Prop :=
  ∀ save ∈ saves, (saveAll (initArp eth) saves).lookup save.ip = lastSaved saves save.ip

theorem size_of_ip_pos : 0 < 4 := by decide

/-- The records whose pair is entered once. -/
def startsNonzero (save : ArpSave) : Bool := save.ip ⟨0, size_of_ip_pos⟩ ≠ 0#8

/-- At the first call for an address fewer than 1024 records were made, and the hardware address
is still that of the last call for it. -/
def FirstIsLatest (saves : List ArpSave) : Prop :=
  ∀ pre save post, saves = pre ++ save :: post → (∀ d ∈ pre, save.ip ≠ d.ip) →
    recordCount startsNonzero pre < 1024 ∧ lastSaved saves save.ip = some save.mac

/-! ### The wait for the router -/

/-- The loop of `get_hardwere_ethernet`; the list holds the contents of `arp_cache` after each
`sleep`, and `none` is the loop that goes on waiting. -/
def hardwereLoop : List (Nat → ArpCache) → (n : Int) → Ethernet → Option (Int × Option Mac × Ethernet)
  | sleeps, n, eth =>
      if n > 0 then
        match eth.lookup eth.routerIp with
        | some mac => some (0, some mac, eth)
        | none =>
            match sleeps with
            | [] => none
            | arpCache :: sleeps =>
                hardwereLoop sleeps n { arpRequest eth.routerIp everyone eth with arpCache }
      else some (-1, none, eth)

/-- The cache at the lookup `k`. -/
def cacheAt (eth : Ethernet) (caches : Nat → Nat → ArpCache) : Nat → Nat → ArpCache
  | 0 => eth.arpCache
  | k + 1 => caches k

/-- The call returns after at most two requests, with 0 and a hardware address or with -1. -/
def EndsInTwo (eth : Ethernet) (caches : Nat → Nat → ArpCache) : Prop :=
  ∃ k ≤ 2, ∃ value mac eth', hardwereLoop ((List.range k).map caches) 2 eth =
    some (value, mac, eth') ∧ ((value = 0 ∧ mac ≠ none) ∨ (value = -1 ∧ k = 2))

variable {eth : Ethernet} {saves pre post : List ArpSave} {save : ArpSave} {ip : Ip}
  {log : List ArpSave}

/-! ### The cache is a table of records -/

/-- The cache holds the records of `log`, in order, and is free behind them. -/
structure HoldsLog (arpCache : Nat → ArpCache) (log : List ArpSave) : Prop where
  length : log.length ≤ 1024
  filled : ∀ i (h : i < log.length), (arpCache i).mac = log[i].mac ∧ (arpCache i).ip = log[i].ip
  free : ∀ i, log.length ≤ i → i < 1024 → (arpCache i).ip = noIp

theorem init_arp_cache (eth : Ethernet) :
    (initArp eth).arpCache = fun _ => ⟨fun _ => 0#8, noIp⟩ := by
  unfold initArp arpRequest sendEthernetPackage
  split <;> rfl

theorem init_arp_holds (eth : Ethernet) : HoldsLog (initArp eth).arpCache [] := by
  rw [init_arp_cache]
  exact ⟨Nat.zero_le _, fun i h => absurd h (Nat.not_lt_zero i), fun _ _ _ => rfl⟩

/-- A lookup searches the log. -/
theorem HoldsLog.lookup (h : HoldsLog eth.arpCache log) (hip : ip ≠ noIp) :
    eth.lookup ip = (log.find? fun save => ip = save.ip).map ArpSave.mac := by
  unfold Ethernet.lookup arpCacheGetAddress
  cases hfind : log.find? fun save => ip = save.ip with
  | none =>
      rw [List.find?_eq_none] at hfind
      have hnone : (List.range 1024).find? (fun i => ip = (eth.arpCache i).ip) = none := by
        rw [List.find?_eq_none]
        intro i hi
        rw [decide_eq_true_iff]
        by_cases hlog : i < log.length
        · rw [(h.filled i hlog).2]
          have := hfind log[i] (List.getElem_mem hlog)
          rwa [decide_eq_true_iff] at this
        · rw [h.free i (Nat.not_lt.mp hlog) (List.mem_range.mp hi)]
          exact hip
      rw [hnone]
      rfl
  | some save =>
      rw [List.find?_eq_some_iff_getElem] at hfind
      obtain ⟨hsave, i, hi, hget, hbefore⟩ := hfind
      have hlength := h.length
      have hsome : (List.range 1024).find? (fun i => ip = (eth.arpCache i).ip) = some i := by
        rw [List.find?_range_eq_some]
        refine ⟨?_, by rw [List.mem_range]; omega, fun j hj => ?_⟩
        · rw [(h.filled i hi).2, hget]
          exact hsave
        · rw [(h.filled j (by omega)).2]
          exact hbefore j hj
      rw [hsome, Option.map_some, Option.map_some, (h.filled i hi).1, hget]

/-- The pair is found in the cache when it is in the log and its address starts with another byte
than 0. -/
theorem HoldsLog.known_iff (h : HoldsLog eth.arpCache log) (save : ArpSave) :
    ((List.range 1024).any fun i => (eth.arpCache i).ip 0 ≠ 0#8 ∧
      save.ip = (eth.arpCache i).ip ∧ save.mac = (eth.arpCache i).mac) = true ↔
      startsNonzero save ∧ save ∈ log := by
  have hlength := h.length
  rw [List.any_eq_true]
  constructor
  · rintro ⟨i, hi, hmatch⟩
    rw [decide_eq_true_iff] at hmatch
    obtain ⟨hzero, hip, hmac⟩ := hmatch
    by_cases hlog : i < log.length
    · obtain ⟨hmac', hip'⟩ := h.filled i hlog
      have hsame : save = log[i] := by
        rw [hip'] at hip
        rw [hmac'] at hmac
        cases save
        cases hrecord : log[i]
        simp_all
      refine ⟨?_, hsame ▸ List.getElem_mem hlog⟩
      rw [startsNonzero, decide_eq_true_iff, hip]
      exact hzero
    · rw [h.free i (Nat.not_lt.mp hlog) (List.mem_range.mp hi)] at hzero
      exact absurd rfl hzero
  · rintro ⟨hzero, hmem⟩
    obtain ⟨i, hi, hget⟩ := List.getElem_of_mem hmem
    refine ⟨i, List.mem_range.mpr (by omega), ?_⟩
    rw [decide_eq_true_iff, (h.filled i hi).1, (h.filled i hi).2, hget]
    rw [startsNonzero, decide_eq_true_iff] at hzero
    exact ⟨hzero, rfl, rfl⟩

/-- The free entry that is found: the one behind the log, if there is one. -/
theorem HoldsLog.free_entry (h : HoldsLog eth.arpCache log) :
    (List.range 1024).find? (fun i => (eth.arpCache i).ip = fun _ => 0#8) =
      if 1024 ≤ log.length then none else some log.length := by
  split
  · next hfull =>
      rw [List.find?_eq_none]
      intro i hi
      have hlog : i < log.length := Nat.lt_of_lt_of_le (List.mem_range.mp hi) hfull
      rw [decide_eq_true_iff, (h.filled i hlog).2]
      exact log[i].nonzero
  · next hroom =>
      rw [List.find?_range_eq_some]
      refine ⟨?_, by rw [List.mem_range]; omega, fun j hj => ?_⟩
      · rw [decide_eq_true_iff]
        exact h.free log.length (Nat.le_refl _) (by omega)
      · rw [Bool.not_eq_true', decide_eq_false_iff_not, (h.filled j hj).2]
        exact log[j].nonzero

/-- Filling the entry behind the log. -/
theorem HoldsLog.append {arpCache : Nat → ArpCache} (h : HoldsLog arpCache log) (save : ArpSave)
    (hroom : ¬ 1024 ≤ log.length) :
    HoldsLog (Function.update arpCache log.length ⟨save.mac, save.ip⟩) (log ++ [save]) := by
  refine ⟨?_, fun i hi => ?_, fun i hlow hhigh => ?_⟩
  · rw [List.length_append, List.length_singleton]
    omega
  · rw [List.length_append, List.length_singleton] at hi
    by_cases hlast : i = log.length
    · subst hlast
      rw [Function.update_self, List.getElem_concat_length rfl]
      exact ⟨rfl, rfl⟩
    · rw [Function.update_of_ne hlast, List.getElem_append_left (by omega)]
      exact h.filled i (by omega)
  · rw [List.length_append, List.length_singleton] at hlow
    rw [Function.update_of_ne (by omega)]
    exact h.free i (by omega) hhigh

/-- A call enters its pair into the log, if there is room. -/
theorem HoldsLog.entered (h : HoldsLog eth.arpCache log) (save : ArpSave) :
    HoldsLog (arpSaveAddress save.ip save.mac eth).arpCache
      (boundedRecord startsNonzero 1024 log save) := by
  have hknown := h.known_iff save
  unfold arpSaveAddress boundedRecord
  by_cases hsaved : startsNonzero save ∧ save ∈ log
  · rw [if_pos (hknown.mpr hsaved), if_pos (Or.inl hsaved)]
    exact h
  · rw [if_neg (hknown.not.mpr hsaved), h.free_entry]
    by_cases hfull : 1024 ≤ log.length
    · rw [if_pos hfull, if_pos (Or.inr hfull)]
      exact h
    · rw [if_neg hfull, if_neg (not_or.mpr ⟨hsaved, hfull⟩)]
      exact h.append save hfull

theorem save_all_snoc (eth : Ethernet) (saves : List ArpSave) (save : ArpSave) :
    saveAll eth (saves ++ [save]) = arpSaveAddress save.ip save.mac (saveAll eth saves) :=
  List.foldl_concat ..

theorem save_all_holds (eth : Ethernet) (saves : List ArpSave) :
    HoldsLog (saveAll (initArp eth) saves).arpCache (boundedLog startsNonzero 1024 saves) := by
  induction saves using List.reverseRecOn with
  | nil => exact init_arp_holds eth
  | append_singleton saves save ih =>
      rw [save_all_snoc, bounded_log_snoc]
      exact ih.entered save

/-- A lookup after some calls: the first pair of the address, if there was room for it. -/
theorem lookup_save_all (eth : Ethernet) (hpre : ∀ d ∈ pre, save.ip ≠ d.ip) :
    (saveAll (initArp eth) (pre ++ save :: post)).lookup save.ip =
      if recordCount startsNonzero pre < 1024 then some save.mac else none := by
  have hnone : ∀ d ∈ pre, decide (save.ip = d.ip) = false := by
    intro d hd
    rw [decide_eq_false_iff_not]
    exact hpre d hd
  rw [(save_all_holds eth _).lookup save.nonzero,
    find_bounded_log (p := fun d : ArpSave => decide (save.ip = d.ip)) hnone
      (decide_eq_true rfl)]
  split <;> rfl

/-- The last call for an address that was saved. -/
theorem last_saved_some (h : save ∈ saves) : ∃ mac, lastSaved saves save.ip = some mac := by
  unfold lastSaved
  cases hfind : saves.reverse.find? fun d => save.ip = d.ip with
  | none =>
      rw [List.find?_eq_none] at hfind
      exact absurd (decide_eq_true rfl) (hfind save (List.mem_reverse.mpr h))
  | some last => exact ⟨last.mac, rfl⟩

/-- The lookups find the last hardware addresses exactly when these are the first ones. -/
theorem lookups_latest_iff (eth : Ethernet) (saves : List ArpSave) :
    LookupsLatest eth saves ↔ FirstIsLatest saves := by
  constructor
  · rintro h pre save post rfl hpre
    have hlast := h save (by simp)
    rw [lookup_save_all eth hpre] at hlast
    obtain ⟨mac, hmac⟩ := @last_saved_some (pre ++ save :: post) save (by simp)
    rw [hmac] at hlast ⊢
    split at hlast
    · exact ⟨‹_›, hlast.symm⟩
    · exact absurd hlast (by simp)
  · intro h save hsave
    -- the first call for the address
    obtain ⟨first, hfirst⟩ : ∃ first, saves.find? (fun d => save.ip = d.ip) = some first := by
      rw [← Option.isSome_iff_exists, List.find?_isSome]
      exact ⟨save, hsave, decide_eq_true rfl⟩
    rw [List.find?_eq_some_iff_append] at hfirst
    obtain ⟨hip, pre, post, rfl, hpre⟩ := hfirst
    rw [decide_eq_true_iff] at hip
    have hpre : ∀ d ∈ pre, first.ip ≠ d.ip := by
      intro d hd hsame
      have := hpre d hd
      rw [Bool.not_eq_true', decide_eq_false_iff_not] at this
      exact this (hip.trans hsame)
    obtain ⟨hroom, hlast⟩ := h pre first post rfl hpre
    rw [hip, lookup_save_all eth hpre, if_pos hroom, hlast]

/-- A call changes no other lookup. -/
theorem lookup_other (eth : Ethernet) (saves : List ArpSave) (save : ArpSave) (hip : ip ≠ noIp)
    (hne : ip ≠ save.ip) :
    (saveAll (initArp eth) (saves ++ [save])).lookup ip =
      (saveAll (initArp eth) saves).lookup ip := by
  have hafter := save_all_holds eth (saves ++ [save])
  rw [bounded_log_snoc] at hafter
  rw [hafter.lookup hip, (save_all_holds eth saves).lookup hip]
  unfold boundedRecord
  split
  · rfl
  · rw [List.find?_append, List.find?_cons_of_neg (by simpa using hne), List.find?_nil,
      Option.or_none]

/-! ### The wait ends with an answer or not at all -/

/-- The loop finds the router or goes on: the counter does not stop it. -/
theorem hardwere_loop_eq (sleeps : List (Nat → ArpCache)) (eth : Ethernet) :
    hardwereLoop sleeps 2 eth =
      (getHardwereEthernet sleeps eth).map fun r => (0, some r.1, r.2) := by
  induction sleeps generalizing eth with
  | nil =>
      rw [hardwereLoop, if_pos (by decide), getHardwereEthernet, Ethernet.lookup]
      cases arpCacheGetAddress eth.routerIp eth.arpCache with
      | none => rfl
      | some mac => rfl
  | cons arpCache sleeps ih =>
      rw [hardwereLoop, if_pos (by decide), getHardwereEthernet, Ethernet.lookup]
      cases arpCacheGetAddress eth.routerIp eth.arpCache with
      | none => exact ih _
      | some mac => rfl

/-- The loop ends by the lookup `k` when the router is in the cache at one of the lookups. -/
theorem hardwere_loop_some (sleeps : List (Nat → ArpCache)) (eth : Ethernet) :
    hardwereLoop sleeps 2 eth ≠ none ↔
      ∃ arpCache ∈ eth.arpCache :: sleeps, arpCacheGetAddress eth.routerIp arpCache ≠ none := by
  induction sleeps generalizing eth with
  | nil =>
      rw [hardwereLoop, if_pos (by decide), Ethernet.lookup]
      cases hlookup : arpCacheGetAddress eth.routerIp eth.arpCache with
      | none => simp [hlookup]
      | some mac => simp [hlookup]
  | cons arpCache sleeps ih =>
      have hrouter : (arpRequest eth.routerIp everyone eth).routerIp = eth.routerIp := by
        unfold arpRequest sendEthernetPackage
        split <;> rfl
      rw [hardwereLoop, if_pos (by decide), Ethernet.lookup]
      cases hlookup : arpCacheGetAddress eth.routerIp eth.arpCache with
      | none =>
          dsimp only
          rw [ih, List.exists_mem_cons_iff, List.exists_mem_cons_iff, List.exists_mem_cons_iff,
            hlookup]
          dsimp only
          rw [hrouter]
          simp
      | some mac => simp [hlookup]

theorem ends_in_two_iff (eth : Ethernet) (caches : Nat → Nat → ArpCache) :
    EndsInTwo eth caches ↔
      ∃ k ≤ 2, arpCacheGetAddress eth.routerIp (cacheAt eth caches k) ≠ none := by
  have hcaches : ∀ k, (∃ arpCache ∈ eth.arpCache :: (List.range k).map caches,
      arpCacheGetAddress eth.routerIp arpCache ≠ none) ↔
      ∃ j ≤ k, arpCacheGetAddress eth.routerIp (cacheAt eth caches j) ≠ none := by
    intro k
    constructor
    · rintro ⟨arpCache, hmem, hlookup⟩
      rcases List.mem_cons.mp hmem with rfl | hmem
      · exact ⟨0, Nat.zero_le k, hlookup⟩
      · obtain ⟨j, hj, rfl⟩ := List.mem_map.mp hmem
        exact ⟨j + 1, List.mem_range.mp hj, hlookup⟩
    · rintro ⟨j, hj, hlookup⟩
      cases j with
      | zero => exact ⟨_, List.mem_cons_self, hlookup⟩
      | succ j =>
          exact ⟨caches j, List.mem_cons_of_mem _ (List.mem_map.mpr
            ⟨j, List.mem_range.mpr hj, rfl⟩), hlookup⟩
  constructor
  · rintro ⟨k, hk, value, mac, eth', hloop, -⟩
    obtain ⟨j, hj, hlookup⟩ := (hcaches k).mp ((hardwere_loop_some _ eth).mp
      (by rw [hloop]; exact Option.some_ne_none _))
    exact ⟨j, hj.trans hk, hlookup⟩
  · rintro ⟨k, hk, hlookup⟩
    have hsome := (hardwere_loop_some _ eth).mpr ((hcaches k).mpr ⟨k, Nat.le_refl k, hlookup⟩)
    rw [hardwere_loop_eq] at hsome
    cases hget : getHardwereEthernet ((List.range k).map caches) eth with
    | none => exact absurd (by rw [hget]; rfl) hsome
    | some r =>
        refine ⟨k, hk, 0, some r.1, r.2, ?_, Or.inl ⟨rfl, Option.some_ne_none r.1⟩⟩
        rw [hardwere_loop_eq, hget]
        rfl

/-- Lookups find the hardware address that was saved last exactly when it was the first one and
came while there was room; other lookups never change; and the wait for the router ends within two
requests exactly when one of its first three lookups succeeds. -/
theorem arp_cache_iff (eth : Ethernet) :
    (∀ saves, LookupsLatest eth saves ↔ FirstIsLatest saves) ∧
      (∀ saves save ip, ip ≠ noIp → ip ≠ save.ip →
        (saveAll (initArp eth) (saves ++ [save])).lookup ip =
          (saveAll (initArp eth) saves).lookup ip) ∧
      ∀ caches, EndsInTwo eth caches ↔
        ∃ k ≤ 2, arpCacheGetAddress eth.routerIp (cacheAt eth caches k) ≠ none :=
  ⟨lookups_latest_iff eth, fun saves save _ hip hne => lookup_other eth saves save hip hne,
    ends_in_two_iff eth⟩

/-- A host with the router 10.0.0.1. -/
def arpHost : Ethernet := ⟨fun _ => 2#8, 1#8, 1#8, fun _ => 10#8, ![10#8, 0#8, 0#8, 1#8],
  fun _ => ⟨fun _ => 0#8, noIp⟩, 0#32, []⟩

/-- A host that is saved with two hardware addresses. -/
def movedSaves : List ArpSave :=
  [⟨![10#8, 0#8, 0#8, 7#8], fun _ => 1#8, by decide⟩,
    ⟨![10#8, 0#8, 0#8, 7#8], fun _ => 2#8, by decide⟩]

/-- After one call a lookup of another address finds nothing, as before. -/
theorem arp_cache_iff_one :
    (saveAll (initArp arpHost) ([] ++ [⟨![10#8, 0#8, 0#8, 7#8], fun _ => 1#8, by decide⟩])).lookup
        ![10#8, 0#8, 0#8, 8#8] =
      (saveAll (initArp arpHost) []).lookup ![10#8, 0#8, 0#8, 8#8] :=
  (arp_cache_iff arpHost).2.1 [] _ _ (by decide) (by decide)

/-- The second hardware address is never found, and the wait for a silent router does not end. -/
theorem arp_cache_stale :
    ¬ LookupsLatest arpHost movedSaves ∧
      ∀ k, hardwereLoop ((List.range k).map fun _ => arpHost.arpCache) 2 arpHost = none := by
  have hempty : ∀ arpCache : Nat → ArpCache, arpCache = arpHost.arpCache →
      arpCacheGetAddress arpHost.routerIp arpCache = none := by
    rintro arpCache rfl
    have hinit : (initArp arpHost).lookup arpHost.routerIp = none :=
      (init_arp_holds arpHost).lookup (by decide)
    exact hinit
  constructor
  · intro h
    have hlast := h ⟨![10#8, 0#8, 0#8, 7#8], fun _ => 2#8, by decide⟩ (by decide)
    rw [(save_all_holds arpHost movedSaves).lookup (by decide), bounded_log_eq] at hlast
    exact absurd hlast (by decide)
  · intro k
    by_contra hsome
    obtain ⟨arpCache, hmem, hlookup⟩ := (hardwere_loop_some _ arpHost).mp hsome
    refine hlookup (hempty arpCache ?_)
    rcases List.mem_cons.mp hmem with rfl | hmem
    · rfl
    · obtain ⟨j, -, rfl⟩ := List.mem_map.mp hmem
      rfl

end Sirius.Net
