import Mathlib.Tactic
import Sirius.Library.Cells
import Sirius.Library.Recency
import Sirius.Library.Runs

/-!
# The client list of the window manager

`client_listing`, `acknowledge` and the focus click of `f1` in `user/windowX.c`. The clients are
linked in front of a dummy with flag 0; the first one has the focus. The calls are taken one after
the other, each finds `spinlock` at 0 and leaves it so, and it is left out. The loops are cut off
after `n` steps. `Desk` is the list without addresses, with the history that it must agree with.
-/

namespace Sirius.Gui

open Library

/-- The fields of `CLIENT` that are used. -/
structure Client where
  (w pid id flag : BitVec 64)
  udpPort : BitVec 16
  next : Nat

/-- The place of a `WINDOW`. -/
structure Place where
  (posX posY width height : BitVec 32)

/-- A request that is sent to the kernel's window server or to the client's port. -/
inductive ClientRequest where
  | foco (apid : BitVec 64)
  | exit (pid : BitVec 64)
  | event (type : BitVec 32) (udpPort : BitVec 16)

/-- The globals of `windowX.c`; an address that holds no `CLIENT` has none. -/
structure WindowX where
  heap : Nat → Option Client
  client : Nat
  clientReadyQueue : Nat
  sent : List ClientRequest

/-- Write one client. -/
def setClient (heap : Nat → Option Client) (p : Nat) (c : Client) : Nat → Option Client :=
  Function.update heap p (some c)

/-- The start of `main`: the dummy at the address `dummy`. -/
def WindowX.start (dummy : Nat) : WindowX :=
  ⟨setClient (fun _ => none) dummy ⟨0#64, 0#64, 0#64, 0#64, 0#16, 0⟩, dummy, dummy, []⟩

/-- `client_listing`, with the address `new` that `malloc` returns and the `id` that the window
server returns. -/
def clientListing (new : Nat) (w pid id : BitVec 64) (udpPort : BitVec 16) (s : WindowX) :
    WindowX :=
  { s with heap := setClient s.heap new ⟨w, pid, id, 1#64, udpPort, s.client⟩, client := new }

/-- `acknowledge`, with the `id` of the component `w3`, if there is one. -/
def acknowledge (w3 : Option (BitVec 32)) (s : WindowX) : Option WindowX :=
  match w3 with
  | none => some s
  | some id =>
      if id < 32#32 then
        if id = 1#32 then do
          let tmp ← s.heap s.client
          let s :=
            { s with
              heap := Function.update s.heap s.client none
              client := tmp.next
              sent := .exit tmp.pid :: s.sent }
          let c ← s.heap s.client
          if c.w ≠ 0#64 then pure { s with sent := .foco c.id :: s.sent } else pure s
        else some s
      else do
        let c ← s.heap s.client
        pure { s with sent := .event id c.udpPort :: s.sent }

/-- The test of the focus click, with the signed comparisons of `int`. -/
def Place.contains (x y : BitVec 32) (p : Place) : Bool :=
  p.posX.slt x && p.posY.slt y && x.slt (p.posX + p.width) && y.slt (p.posY + p.height)

/-- The loop of the focus click that goes on from `tmp2` and links each client past `tmp`. -/
def relink : (n : Nat) → (heap : Nat → Option Client) → (tmp tmp2 : Nat) →
    Option (Nat → Option Client)
  | 0, heap, _, tmp2 => if tmp2 = 0 then some heap else none
  | n + 1, heap, tmp, tmp2 =>
      if tmp2 = 0 then some heap
      else do
        let c2 ← heap tmp2
        if c2.next = tmp then do
          let c ← heap tmp
          relink n (setClient heap tmp2 { c2 with next := c.next }) tmp c.next
        else relink n heap tmp c2.next

/-- The list part of `f1` for a click at `(x, y)`, where `place` gives the places of the windows. -/
def focusClick (n : Nat) (x y : BitVec 32) (place : BitVec 64 → Place)
    (w3 : Option (BitVec 32)) (s : WindowX) : Option WindowX := do
  let tmp ← search Client.next s.heap
    (fun c => decide (c.flag ≠ 0#64) && (place c.w).contains x y) n s.client
  if tmp = 0 then pure s
  else if s.client = tmp then acknowledge w3 s
  else do
    let c ← s.heap tmp
    let heap ← relink n s.heap tmp s.client
    let c' ← heap tmp
    pure { s with
      heap := setClient heap tmp { c' with next := s.client }
      client := tmp
      sent := .foco c.id :: s.sent }

/-! ### Histories -/

/-- A call with what it is given. -/
inductive ClientCall where
  | register (new : Nat) (w pid id : BitVec 64) (udpPort : BitVec 16)
  | click (x y : BitVec 32) (place : BitVec 64 → Place) (w3 : Option (BitVec 32))

/-- A registration; the number tells apart two with the same data. -/
structure Registration where
  number : Nat
  (w pid id : BitVec 64)
  udpPort : BitVec 16
  deriving DecidableEq

/-- The clients in order, and the history with the last event first: the registrations, the
registrations and focus clicks, and the closed clients. -/
structure Desk where
  (clients registered uses closed : List Registration)

/-- What a call does to the clients. A click is for the first client whose window contains the
point; it closes that client if it is the first one and the click is on its close button. -/
def Desk.call (d : Desk) : ClientCall → Desk
  | .register _ w pid id udpPort =>
      let r := ⟨d.registered.length, w, pid, id, udpPort⟩
      { d with
        clients := r :: d.clients, registered := r :: d.registered, uses := r :: d.uses }
  | .click x y place w3 =>
      match d.clients.find? fun r => (place r.w).contains x y with
      | none => d
      | some r =>
          if d.clients.head? = some r ∧ w3 = some 1#32 then
            { d with clients := d.clients.tail, closed := r :: d.closed }
          else { d with clients := r :: d.clients.erase r, uses := r :: d.uses }

namespace ClientCall

/-- The function called, with `n` steps for its loops. -/
def run (n : Nat) (s : WindowX) : ClientCall → Option WindowX
  | .register new w pid id udpPort => some (clientListing new w pid id udpPort s)
  | .click x y place w3 => focusClick n x y place w3 s

/-- `malloc` returns memory that is not in use. -/
def Fresh (s : WindowX) : ClientCall → Prop
  | .register new .. => new ≠ 0 ∧ s.heap new = none
  | _ => True

end ClientCall

/-- A call together with the clients it should leave. -/
inductive ClientStep : WindowX × Desk → ClientCall → WindowX × Desk → Prop where
  | call (s s' : WindowX) (d : Desk) (c : ClientCall) (hfresh : c.Fresh s) :
      Returns (fun n => c.run n s) s' → ClientStep (s, d) c (s', d.call c)

/-- The address holds that client. -/
def Shows (heap : Nat → Option Client) (a : Nat) (r : Registration) : Prop :=
  ∃ next, heap a = some ⟨r.w, r.pid, r.id, 1#64, r.udpPort, next⟩

/-- The list from `client` on holds the clients, then the dummy, each address once. -/
structure ClientList (s : WindowX) (clients : List Registration) : Prop where
  cells : ∃ l, Cells Client.next s.heap s.client (l ++ [s.clientReadyQueue]) ∧
    (l ++ [s.clientReadyQueue]).Nodup ∧ List.Forall₂ (Shows s.heap) l clients
  dummy : s.heap s.clientReadyQueue = some ⟨0#64, 0#64, 0#64, 0#64, 0#16, 0⟩

variable {heap heap' : Nat → Option Client} {p q a b n dummy : Nat} {l l₁ l₂ : List Nat}
  {s s' : WindowX} {clients r₁ r₂ : List Registration} {r : Registration} {d d' : Desk}

/-! ### Clients in the heap -/

@[simp] theorem set_client_self {c : Client} : setClient heap p c p = some c :=
  Function.update_self ..

theorem set_client_other {c : Client} (h : a ≠ p) : setClient heap p c a = heap a :=
  Function.update_of_ne h ..

/-- Relinking a client keeps what the addresses hold. -/
theorem Shows.relink {c : Client} {v : Nat} (hp : heap p = some c) (h : Shows heap a r) :
    Shows (setClient heap p { c with next := v }) a r := by
  obtain ⟨next, hnext⟩ := h
  rcases eq_or_ne a p with rfl | hne
  · cases hp.symm.trans hnext
    exact ⟨v, set_client_self⟩
  · exact ⟨next, (set_client_other hne).trans hnext⟩

/-- The clients from one of them on. -/
theorem shows_split (h : List.Forall₂ (Shows heap) l (r₁ ++ r :: r₂)) :
    ∃ l₁ b l₂, l = l₁ ++ b :: l₂ ∧ List.Forall₂ (Shows heap) l₁ r₁ ∧ Shows heap b r ∧
      List.Forall₂ (Shows heap) l₂ r₂ := by
  induction r₁ generalizing l with
  | nil =>
      obtain ⟨b, l₂, hb, hrest, rfl⟩ := List.forall₂_cons_right_iff.mp h
      exact ⟨[], b, l₂, rfl, .nil, hb, hrest⟩
  | cons r' r₁ ih =>
      obtain ⟨a, l, ha, hrest, rfl⟩ := List.forall₂_cons_right_iff.mp h
      obtain ⟨l₁, b, l₂, rfl, hfront, hb, hback⟩ := ih hrest
      exact ⟨a :: l₁, b, l₂, rfl, .cons ha hfront, hb, hback⟩

theorem client_list_of {l : List Nat}
    (hcells : Cells Client.next s.heap s.client (l ++ [s.clientReadyQueue]))
    (hshows : List.Forall₂ (Shows s.heap) l clients)
    (hdummy : s.heap s.clientReadyQueue = some ⟨0#64, 0#64, 0#64, 0#64, 0#16, 0⟩) :
    ClientList s clients := ⟨⟨l, hcells, hcells.nodup, hshows⟩, hdummy⟩

/-! ### The loops -/

/-- A list without a link to the client stays as it is. -/
theorem relink_none (hcells : Cells Client.next heap p l) (hb : b ∉ l) (hzero : b ≠ 0)
    (hn : l.length ≤ n) : relink n heap b p = some heap := by
  induction l generalizing p n with
  | nil =>
      obtain rfl := hcells
      cases n <;> rfl
  | cons q l ih =>
      have hne := hcells.link_ne hb hzero q (List.mem_cons_self ..)
      obtain ⟨rfl, hp, c, hc, hl⟩ := hcells
      cases n with
      | zero => simp at hn
      | succ n =>
          rw [hc, Option.map_some] at hne
          rw [relink, if_neg hp, hc]
          simp only [Option.bind_eq_bind, Option.bind_some]
          rw [if_neg fun heq => hne (congrArg some heq)]
          exact ih hl (fun hmem => hb (List.mem_cons_of_mem _ hmem)) (by simpa using hn)

/-- The client before it is linked past the client, and no other one is. -/
theorem relink_eq {c e : Client} (hcells : Cells Client.next heap p (l₁ ++ q :: b :: l₂))
    (hq : heap q = some c) (hb : heap b = some e) (hn : (l₁ ++ q :: b :: l₂).length ≤ n) :
    relink n heap b p = some (setClient heap q { c with next := e.next }) := by
  have hzero : b ≠ 0 := hcells.ne_zero b (by simp)
  induction l₁ generalizing p n with
  | nil =>
      have hunlinked : Cells Client.next (setClient heap q { c with next := e.next }) p
          ([] ++ q :: l₂) :=
        hcells.unlink hb (fun a ha _ => set_client_other ha) (by rw [set_client_self]; rfl)
      have hnodup := hcells.nodup
      obtain ⟨rfl, hp, c', hc, hl⟩ := hcells
      cases hq.symm.trans hc
      obtain ⟨n, rfl⟩ : ∃ m, n = m + 1 := ⟨n - 1, by simp at hn; omega⟩
      have hnext : c.next = b := hl.1
      rw [relink, if_neg hp, hq]
      simp only [Option.bind_eq_bind, Option.bind_some]
      rw [if_pos hnext, hb]
      -- the loop goes on behind the client that is taken out
      obtain ⟨-, -, c', hc', hrest⟩ := hunlinked
      rw [set_client_self] at hc'
      cases hc'
      refine relink_none hrest (fun hmem => ?_) hzero (by simp at hn; omega)
      exact (List.nodup_cons.mp (List.nodup_cons.mp hnodup).2).1 hmem
  | cons y l₁ ih =>
      obtain ⟨rfl, hp, c', hc, hl⟩ := hcells
      obtain ⟨n, rfl⟩ : ∃ m, n = m + 1 := ⟨n - 1, by simp at hn; omega⟩
      have hne : c'.next ≠ b := by
        intro heq
        -- a chain that starts at the client is shorter
        have hrest : Cells Client.next heap c'.next ((l₁ ++ [q]) ++ b :: l₂) := by simpa using hl
        have hlen := congrArg List.length (Cells.unique (heq ▸ hrest) hrest.of_append)
        simp only [List.length_append, List.length_cons, List.length_nil] at hlen
        omega
      have hl : Cells Client.next heap c'.next (l₁ ++ q :: b :: l₂) := hl
      rw [relink, if_neg hp, hc]
      simp only [Option.bind_eq_bind, Option.bind_some]
      rw [if_neg hne]
      exact ih hl (by simpa using hn)

/-! ### The calls -/

theorem ClientList.register (h : ClientList s clients) {new : Nat} (hnew : new ≠ 0)
    (hfresh : s.heap new = none) (w pid id : BitVec 64) (udpPort : BitVec 16) (k : Nat) :
    ClientList (clientListing new w pid id udpPort s) (⟨k, w, pid, id, udpPort⟩ :: clients) := by
  obtain ⟨⟨l, hcells, -, hshows⟩, hdummy⟩ := h
  have hother : ∀ a, s.heap a ≠ none →
      setClient s.heap new ⟨w, pid, id, 1#64, udpPort, s.client⟩ a = s.heap a := fun a ha =>
    set_client_other fun heq => ha (heq ▸ hfresh)
  have hcells' : Cells Client.next
      (setClient s.heap new ⟨w, pid, id, 1#64, udpPort, s.client⟩) s.client
      (l ++ [s.clientReadyQueue]) := hcells.congr fun a ha => by
    obtain ⟨c, hc⟩ := hcells.allocated a ha
    rw [hother a (by rw [hc]; exact Option.some_ne_none c)]
  refine client_list_of (l := new :: l) ⟨rfl, hnew, _, set_client_self, hcells'⟩
    (.cons ⟨s.client, set_client_self⟩ (hshows.imp fun a r hr => ?_)) ?_
  · obtain ⟨next, hnext⟩ := hr
    exact ⟨next, (hother a (by rw [hnext]; exact Option.some_ne_none _)).trans hnext⟩
  · exact (hother s.clientReadyQueue (by rw [hdummy]; exact Option.some_ne_none _)).trans hdummy

/-- What the loop of the focus click finds. -/
theorem search_click (h : ClientList s clients) (x y : BitVec 32) (place : BitVec 64 → Place) :
    ∃ l, Cells Client.next s.heap s.client (l ++ [s.clientReadyQueue]) ∧
      List.Forall₂ (Shows s.heap) l clients ∧
      ∀ n, clients.length + 1 ≤ n →
        search Client.next s.heap
          (fun c => decide (c.flag ≠ 0#64) && (place c.w).contains x y) n s.client =
        some ((l.find? fun a => (s.heap a).any
          fun c => decide (c.flag ≠ 0#64) && (place c.w).contains x y).getD 0) := by
  obtain ⟨⟨l, hcells, -, hshows⟩, hdummy⟩ := h
  refine ⟨l, hcells, hshows, fun n hn => ?_⟩
  have hlen : (l ++ [s.clientReadyQueue]).length ≤ n := by
    rw [List.length_append, List.length_singleton, hshows.length_eq]
    exact hn
  rw [hcells.search_eq _ hlen, List.find?_append]
  -- the dummy is skipped
  have hskip : ((s.heap s.clientReadyQueue).any
      fun c => decide (c.flag ≠ 0#64) && (place c.w).contains x y) = false := by
    rw [hdummy]
    rfl
  rw [List.find?_singleton, hskip]
  simp

/-- A client is found by its window. -/
theorem shows_hit (h : Shows heap a r) (x y : BitVec 32) (place : BitVec 64 → Place) :
    ((heap a).any fun c => decide (c.flag ≠ 0#64) && (place c.w).contains x y) =
      (place r.w).contains x y := by
  obtain ⟨next, hnext⟩ := h
  rw [hnext]
  simp

theorem find_hit_none {x y : BitVec 32} {place : BitVec 64 → Place}
    (hshows : List.Forall₂ (Shows heap) l clients)
    (hnone : ∀ r ∈ clients, (place r.w).contains x y = false) :
    (l.find? fun a => (heap a).any
      fun c => decide (c.flag ≠ 0#64) && (place c.w).contains x y) = none := by
  rw [List.find?_eq_none]
  induction hshows with
  | nil => simp
  | cons ha _ ih =>
      intro a hmem
      rcases List.mem_cons.mp hmem with rfl | hmem
      · rw [shows_hit ha, hnone _ (List.mem_cons_self ..)]
        exact Bool.false_ne_true
      · exact ih (fun r hr => hnone r (List.mem_cons_of_mem _ hr)) a hmem

/-- No client is hit. -/
theorem ClientList.click_none (h : ClientList s clients) {x y : BitVec 32}
    {place : BitVec 64 → Place} (hnone : ∀ r ∈ clients, (place r.w).contains x y = false)
    (w3 : Option (BitVec 32)) (hn : clients.length + 1 ≤ n) :
    focusClick n x y place w3 s = some s := by
  obtain ⟨l, -, hshows, hsearch⟩ := search_click h x y place
  rw [focusClick, hsearch n hn, find_hit_none hshows hnone]
  rfl

/-- The first client that is hit. -/
theorem ClientList.search_hit (h : ClientList s (r₁ ++ r :: r₂)) {x y : BitVec 32}
    {place : BitVec 64 → Place} (hbefore : ∀ r ∈ r₁, (place r.w).contains x y = false)
    (hhit : (place r.w).contains x y = true) :
    ∃ l₁ b l₂, Cells Client.next s.heap s.client (l₁ ++ b :: (l₂ ++ [s.clientReadyQueue])) ∧
      List.Forall₂ (Shows s.heap) l₁ r₁ ∧ Shows s.heap b r ∧
      List.Forall₂ (Shows s.heap) l₂ r₂ ∧
      ∀ n, (r₁ ++ r :: r₂).length + 1 ≤ n → search Client.next s.heap
          (fun c => decide (c.flag ≠ 0#64) && (place c.w).contains x y) n s.client = some b := by
  obtain ⟨l, hcells, hshows, hsearch⟩ := search_click h x y place
  obtain ⟨l₁, b, l₂, rfl, hfront, hb, hback⟩ := shows_split hshows
  refine ⟨l₁, b, l₂, by simpa using hcells, hfront, hb, hback, fun n hn => ?_⟩
  rw [hsearch n hn, List.find?_append, find_hit_none hfront hbefore,
    Option.none_or,
    List.find?_cons_of_pos (by rw [shows_hit hb, hhit])]
  rfl

/-- A click on the close button of the first client. -/
theorem ClientList.click_close (h : ClientList s (r :: r₂)) {x y : BitVec 32}
    {place : BitVec 64 → Place} (hhit : (place r.w).contains x y = true) :
    ∃ s', (∀ n, (r :: r₂).length + 1 ≤ n → focusClick n x y place (some 1#32) s = some s') ∧
      ClientList s' r₂ := by
  have hdummy := h.dummy
  have hfirst : ClientList s ([] ++ r :: r₂) := h
  obtain ⟨l₁, b, l₂, hcells, hfront, -, hback, hsearch⟩ := hfirst.search_hit (by simp) hhit
  obtain rfl := List.forall₂_nil_right_iff.mp hfront
  have hnodup := List.nodup_cons.mp hcells.nodup
  obtain ⟨hclient, hb, c, hc, hrest⟩ := hcells
  have hother : ∀ a ∈ l₂ ++ [s.clientReadyQueue], Function.update s.heap b none a = s.heap a := by
    intro a ha
    refine Function.update_of_ne ?_ ..
    rintro rfl
    exact hnodup.1 ha
  have hkept : Cells Client.next (Function.update s.heap b none) c.next
      (l₂ ++ [s.clientReadyQueue]) := hrest.congr fun a ha => by rw [hother a ha]
  -- there is another client behind it, or the dummy
  obtain ⟨e, he⟩ := hkept.allocated c.next (by
    cases l₂ with
    | nil => exact hkept.1 ▸ List.mem_cons_self
    | cons z l₂ => exact hkept.1 ▸ List.mem_cons_self)
  have hlist : ∀ sent, ClientList ⟨Function.update s.heap b none, c.next, s.clientReadyQueue, sent⟩
      r₂ := fun sent => by
    refine client_list_of hkept ?_ ?_
    · refine List.forall₂_iff_get.mpr ⟨hback.length_eq, fun i hi hi' => ?_⟩
      obtain ⟨next, hnext⟩ := (List.forall₂_iff_get.mp hback).2 i hi hi'
      exact ⟨next, (hother _ (List.mem_append_left _ (List.getElem_mem hi))).trans hnext⟩
    · exact (hother s.clientReadyQueue (by simp)).trans hdummy
  refine ⟨_, fun n hn => ?_, hlist (if e.w ≠ 0#64 then .foco e.id :: .exit c.pid :: s.sent
    else .exit c.pid :: s.sent)⟩
  rw [focusClick, hsearch n hn]
  simp only [Option.bind_eq_bind, Option.bind_some]
  rw [if_neg hb, if_pos hclient, acknowledge]
  dsimp only
  rw [if_pos (by decide), if_pos rfl, hclient, hc]
  simp only [Option.bind_eq_bind, Option.bind_some, he]
  by_cases hw : e.w ≠ 0#64
  · rw [if_pos hw, if_pos hw]
    rfl
  · rw [if_neg hw, if_neg hw]
    rfl

/-- Another click on the first client. -/
theorem ClientList.click_first (h : ClientList s (r :: r₂)) {x y : BitVec 32}
    {place : BitVec 64 → Place} (hhit : (place r.w).contains x y = true)
    {w3 : Option (BitVec 32)} (hw3 : w3 ≠ some 1#32) :
    ∃ s', (∀ n, (r :: r₂).length + 1 ≤ n → focusClick n x y place w3 s = some s') ∧
      ClientList s' (r :: r₂) := by
  have hfirst : ClientList s ([] ++ r :: r₂) := h
  obtain ⟨l₁, b, l₂, hcells, hfront, hshows, hback, hsearch⟩ := hfirst.search_hit (by simp) hhit
  obtain rfl := List.forall₂_nil_right_iff.mp hfront
  have hlist : ∀ sent, ClientList { s with sent := sent } (r :: r₂) := fun sent =>
    client_list_of (l := b :: l₂) hcells (.cons hshows hback) h.dummy
  obtain ⟨hclient, hb, c, hc, -⟩ := hcells
  have hclick : ∀ n, (r :: r₂).length + 1 ≤ n →
      focusClick n x y place w3 s = acknowledge w3 s := fun n hn => by
    rw [focusClick, hsearch n hn]
    simp only [Option.bind_eq_bind, Option.bind_some]
    rw [if_neg hb, if_pos hclient]
  cases w3 with
  | none => exact ⟨s, hclick, hlist s.sent⟩
  | some id =>
      by_cases hsystem : id < 32#32
      · refine ⟨s, fun n hn => (hclick n hn).trans ?_, hlist s.sent⟩
        rw [acknowledge]
        dsimp only
        rw [if_pos hsystem, if_neg fun heq => hw3 (congrArg some heq)]
      · refine ⟨_, fun n hn => (hclick n hn).trans ?_, hlist (.event id c.udpPort :: s.sent)⟩
        rw [acknowledge]
        dsimp only
        rw [if_neg hsystem, hclient, hc]
        rfl

/-- A click on another client moves it to the front. -/
theorem ClientList.click_other (h : ClientList s (r₁ ++ r :: r₂)) (hne : r₁ ≠ []) {x y : BitVec 32}
    {place : BitVec 64 → Place} (hbefore : ∀ r ∈ r₁, (place r.w).contains x y = false)
    (hhit : (place r.w).contains x y = true) (w3 : Option (BitVec 32)) :
    ∃ s', (∀ n, (r₁ ++ r :: r₂).length + 1 ≤ n → focusClick n x y place w3 s = some s') ∧
      ClientList s' (r :: (r₁ ++ r₂)) := by
  have hdummy := h.dummy
  obtain ⟨l₁, b, l₂, hcells, hfront, hshows, hback, hsearch⟩ := h.search_hit hbefore hhit
  have hlen : (l₁ ++ b :: (l₂ ++ [s.clientReadyQueue])).length = (r₁ ++ r :: r₂).length + 1 := by
    have hfrontLen := hfront.length_eq
    have hbackLen := hback.length_eq
    simp only [List.length_append, List.length_cons, List.length_nil]
    omega
  -- the client in front of it
  obtain ⟨l₀, q, rfl⟩ := (List.eq_nil_or_concat' l₁).resolve_left fun hnil => by
    subst hnil
    exact hne (List.forall₂_nil_left_iff.mp hfront)
  rw [List.append_assoc, List.singleton_append] at hcells hlen
  obtain ⟨c, hc⟩ := hcells.allocated q (by simp)
  obtain ⟨e, he⟩ := hcells.allocated b (by simp)
  have hnodup := List.nodup_append.mp hcells.nodup
  have hqNot := (List.nodup_cons.mp hnodup.2.1).1
  have hbNot := (List.nodup_cons.mp (List.nodup_cons.mp hnodup.2.1).2).1
  have hqb : q ≠ b := fun heq => hqNot (heq ▸ List.mem_cons_self)
  have hfirst : s.client ≠ b := by
    intro heq
    -- a chain that starts at the client is shorter
    have hall : Cells Client.next s.heap s.client
        ((l₀ ++ [q]) ++ b :: (l₂ ++ [s.clientReadyQueue])) := by simpa using hcells
    have hshort := congrArg List.length (Cells.unique (heq ▸ hall) hall.of_append)
    simp only [List.length_append, List.length_cons, List.length_nil] at hshort
    omega
  have hkeptb : setClient s.heap q { c with next := e.next } b = some e :=
    (set_client_other hqb.symm).trans he
  let heap' := setClient (setClient s.heap q { c with next := e.next }) b
    { e with next := s.client }
  have hsame : ∀ a, a ≠ q → a ≠ b → heap' a = s.heap a := fun a haq hab =>
    (set_client_other hab).trans (set_client_other haq)
  have hunlinked : Cells Client.next heap' s.client (l₀ ++ q :: (l₂ ++ [s.clientReadyQueue])) :=
    hcells.unlink he hsame (by
      change (setClient _ b _ q).map _ = _
      rw [set_client_other hqb, set_client_self]
      rfl)
  have hkept : ∀ a r, Shows s.heap a r → Shows heap' a r := fun a r ha =>
    (ha.relink hc).relink hkeptb
  refine ⟨⟨heap', b, s.clientReadyQueue, .foco e.id :: s.sent⟩, fun n hn => ?_, ?_⟩
  · rw [focusClick, hsearch n hn]
    simp only [Option.bind_eq_bind, Option.bind_some]
    rw [if_neg (hcells.ne_zero b (by simp)), if_neg hfirst, he]
    simp only [Option.bind_some]
    rw [relink_eq hcells hc he (hlen ▸ hn)]
    simp only [Option.bind_some, hkeptb]
    rfl
  · refine client_list_of (l := b :: (l₀ ++ q :: l₂))
      ⟨rfl, hcells.ne_zero b (by simp), _, set_client_self, ?_⟩ (.cons (hkept b r hshows) ?_) ?_
    · change Cells Client.next heap' s.client ((l₀ ++ q :: l₂) ++ [s.clientReadyQueue])
      simpa using hunlinked
    · have hboth : List.Forall₂ (Shows heap') ((l₀ ++ [q]) ++ l₂) (r₁ ++ r₂) :=
        List.rel_append (hfront.imp hkept) (hback.imp hkept)
      rwa [List.append_assoc, List.singleton_append] at hboth
    · refine (hsame s.clientReadyQueue ?_ ?_).trans hdummy
      · exact fun heq => hqNot (heq ▸ by simp)
      · exact fun heq => hbNot (heq ▸ by simp)

/-- A click leaves the clients that it should leave. -/
theorem ClientList.click (h : ClientList s d.clients) (hnodup : d.clients.Nodup)
    (x y : BitVec 32) (place : BitVec 64 → Place) (w3 : Option (BitVec 32)) :
    ∃ s', (∀ n, d.clients.length + 1 ≤ n → focusClick n x y place w3 s = some s') ∧
      ClientList s' (d.call (.click x y place w3)).clients := by
  obtain ⟨clients, registered, uses, closed⟩ := d
  dsimp only at h hnodup ⊢
  cases hfind : clients.find? fun r => (place r.w).contains x y with
  | none =>
      have hnone : ∀ r ∈ clients, (place r.w).contains x y = false := fun r hr =>
        Bool.eq_false_iff.mpr (List.find?_eq_none.mp hfind r hr)
      refine ⟨s, fun n hn => h.click_none hnone w3 hn, ?_⟩
      rw [Desk.call]
      dsimp only
      rw [hfind]
      exact h
  | some r =>
      obtain ⟨hhit, r₁, r₂, rfl, hbefore⟩ := List.find?_eq_some_iff_append.mp hfind
      replace hbefore : ∀ r ∈ r₁, (place r.w).contains x y = false := fun r hr => by
        simpa using hbefore r hr
      rw [Desk.call]
      dsimp only
      rw [hfind]
      dsimp only
      cases r₁ with
      | nil =>
          by_cases hw3 : w3 = some 1#32
          · obtain ⟨s', hclick, hlist⟩ := h.click_close hhit
            rw [if_pos ⟨rfl, hw3⟩, hw3]
            exact ⟨s', hclick, hlist⟩
          · obtain ⟨s', hclick, hlist⟩ := h.click_first hhit hw3
            rw [if_neg fun hclose => hw3 hclose.2]
            refine ⟨s', hclick, ?_⟩
            simpa using hlist
      | cons r' r₁ =>
          have hnot : r ∉ r' :: r₁ := fun hmem =>
            (List.nodup_append.mp hnodup).2.2 r hmem r List.mem_cons_self rfl
          obtain ⟨s', hclick, hlist⟩ := h.click_other (List.cons_ne_nil _ _) hbefore hhit w3
          rw [if_neg fun hclose => hnot (by cases hclose.1; exact List.mem_cons_self)]
          refine ⟨s', hclick, ?_⟩
          rw [List.erase_append_right _ hnot, List.erase_cons_head]
          exact hlist

/-- A call returns, and leaves the clients that it should leave. -/
theorem ClientList.call (h : ClientList s d.clients) (hnodup : d.clients.Nodup) {c : ClientCall}
    (hfresh : c.Fresh s) :
    ∃ s', Returns (fun n => c.run n s) s' ∧ ClientList s' (d.call c).clients := by
  cases c with
  | register new w pid id udpPort =>
      exact ⟨_, ⟨0, fun _ _ => rfl⟩, h.register hfresh.1 hfresh.2 w pid id udpPort _⟩
  | click x y place w3 =>
      obtain ⟨s', hclick, hlist⟩ := h.click hnodup x y place w3
      exact ⟨s', ⟨_, hclick⟩, hlist⟩

/-! ### The history -/

/-- The clients are those registered and not closed, in the order of their last use. -/
structure Desk.Ordered (d : Desk) : Prop where
  nodup : d.clients.Nodup
  mem : ∀ r, r ∈ d.clients ↔ r ∈ d.registered ∧ r ∉ d.closed
  recent : ByRecency d.uses d.clients
  number : ∀ r ∈ d.registered, r.number < d.registered.length
  closed : ∀ r ∈ d.closed, r ∈ d.registered

theorem Desk.Ordered.register (h : d.Ordered) (new : Nat) (w pid id : BitVec 64)
    (udpPort : BitVec 16) : (d.call (.register new w pid id udpPort)).Ordered := by
  obtain ⟨hnodup, hmem, hrecent, hnumber, hclosed⟩ := h
  have hnew : (⟨d.registered.length, w, pid, id, udpPort⟩ : Registration) ∉ d.registered :=
    fun h => absurd (hnumber _ h) (Nat.lt_irrefl _)
  have hnot : (⟨d.registered.length, w, pid, id, udpPort⟩ : Registration) ∉ d.clients :=
    fun h => hnew ((hmem _).mp h).1
  refine ⟨List.nodup_cons.mpr ⟨hnot, hnodup⟩, fun r => ?_, ?_, fun r hr => ?_, fun r hr => ?_⟩
  · change r ∈ _ :: d.clients ↔ r ∈ _ :: d.registered ∧ r ∉ d.closed
    rw [List.mem_cons, List.mem_cons, hmem]
    constructor
    · rintro (rfl | ⟨hr, hopen⟩)
      · exact ⟨.inl rfl, fun hr => hnew (hclosed _ hr)⟩
      · exact ⟨.inr hr, hopen⟩
    · rintro ⟨rfl | hr, hopen⟩
      · exact .inl rfl
      · exact .inr ⟨hr, hopen⟩
  · have htouch := hrecent.touch hnodup ⟨d.registered.length, w, pid, id, udpPort⟩
    rwa [List.erase_of_not_mem hnot] at htouch
  · rcases List.mem_cons.mp hr with rfl | hr
    · exact Nat.lt_succ_self _
    · exact Nat.lt_succ_of_lt (hnumber r hr)
  · exact List.mem_cons_of_mem _ (hclosed r hr)

theorem Desk.Ordered.click (h : d.Ordered) (x y : BitVec 32) (place : BitVec 64 → Place)
    (w3 : Option (BitVec 32)) : (d.call (.click x y place w3)).Ordered := by
  rw [Desk.call]
  cases hfind : d.clients.find? fun r => (place r.w).contains x y with
  | none => exact h
  | some r =>
      obtain ⟨hnodup, hmem, hrecent, hnumber, hclosed⟩ := h
      have hr : r ∈ d.clients := List.mem_of_find?_eq_some hfind
      dsimp only
      split
      · next hclose =>
          -- the first client is closed
          obtain ⟨clients, registered, uses, closed⟩ := d
          obtain ⟨rest, rfl⟩ := List.head?_eq_some_iff.mp hclose.1
          obtain ⟨hnot, hrest⟩ := List.nodup_cons.mp hnodup
          refine ⟨hrest, fun r' => ?_, hrecent.sublist (List.sublist_cons_self ..), hnumber,
            fun r' hr' => ?_⟩
          · have hiff := hmem r'
            dsimp only [List.tail_cons] at hiff ⊢
            rw [List.mem_cons] at hiff ⊢
            constructor
            · intro hr'
              obtain ⟨hregistered, hopen⟩ := hiff.mp (.inr hr')
              exact ⟨hregistered, fun h => h.elim (fun heq => hnot (heq ▸ hr')) hopen⟩
            · rintro ⟨hregistered, hopen⟩
              rw [not_or] at hopen
              exact (hiff.mpr ⟨hregistered, hopen.2⟩).resolve_left hopen.1
          · rcases List.mem_cons.mp hr' with rfl | hr'
            · exact ((hmem _).mp hr).1
            · exact hclosed r' hr'
      · refine ⟨List.nodup_cons.mpr ⟨fun h => (hnodup.mem_erase_iff.mp h).1 rfl, hnodup.erase r⟩,
          fun r' => ?_, hrecent.touch hnodup r, hnumber, hclosed⟩
        rw [← hmem r', List.mem_cons, hnodup.mem_erase_iff]
        constructor
        · rintro (rfl | ⟨-, hr'⟩)
          · exact hr
          · exact hr'
        · intro hr'
          exact (eq_or_ne r' r).imp_right fun hne => ⟨hne, hr'⟩

theorem Desk.Ordered.call (h : d.Ordered) (c : ClientCall) : (d.call c).Ordered := by
  cases c with
  | register new w pid id udpPort => exact h.register new w pid id udpPort
  | click x y place w3 => exact h.click x y place w3

/-- The dummy alone. -/
theorem ClientList.start (hdummy : dummy ≠ 0) : ClientList (WindowX.start dummy) [] := by
  have hcell : (WindowX.start dummy).heap dummy =
      some ⟨0#64, 0#64, 0#64, 0#64, 0#16, 0⟩ := by
    simp [WindowX.start]
  exact client_list_of (l := []) ⟨rfl, hdummy, _, hcell, rfl⟩ .nil hcell

/-- In every run the list holds the clients that were registered and not closed, in the order of
their last registration or click, and each further call returns with the clients it should leave. -/
theorem client_list_runs (hdummy : dummy ≠ 0)
    (h : Run ClientStep (fun _ _ => True) (WindowX.start dummy, ⟨[], [], [], []⟩) (s, d)) :
    (ClientList s d.clients ∧ d.clients.Nodup ∧
      (∀ r, r ∈ d.clients ↔ r ∈ d.registered ∧ r ∉ d.closed) ∧ ByRecency d.uses d.clients) ∧
    ∀ c : ClientCall, c.Fresh s →
      ∃ s', Returns (fun n => c.run n s) s' ∧ ClientList s' (d.call c).clients := by
  have hinv : ClientList s d.clients ∧ d.Ordered :=
    h.invariant (fun sd : WindowX × Desk => ClientList sd.1 sd.2.clients ∧ sd.2.Ordered)
      ⟨ClientList.start hdummy, List.nodup_nil, by simp, ByRecency.nil, by simp, by simp⟩ <| by
      rintro _ c _ ⟨hlist, hordered⟩ - hstep
      cases hstep with
      | call s s' d _ hfresh hreturns =>
          obtain ⟨s'', hcall, hlist'⟩ := hlist.call hordered.nodup hfresh
          exact ⟨hreturns.unique hcall ▸ hlist', hordered.call c⟩
  obtain ⟨hlist, hordered⟩ := hinv
  exact ⟨⟨hlist, hordered.nodup, hordered.mem, hordered.recent⟩,
    fun c hfresh => hlist.call hordered.nodup hfresh⟩

/-- Two clients, and then the window of the one behind is clicked. -/
theorem client_list_runs_two :
    ∃ s', Returns (fun n => focusClick n 5#32 5#32
        (fun w => if w = 7#64 then ⟨0#32, 0#32, 10#32, 10#32⟩ else ⟨50#32, 50#32, 10#32, 10#32⟩)
        none (clientListing 3 8#64 2#64 1#64 1030#16
          (clientListing 2 7#64 1#64 0#64 1029#16 (WindowX.start 1)))) s' ∧
      ClientList s' [⟨0, 7#64, 1#64, 0#64, 1029#16⟩, ⟨1, 8#64, 2#64, 1#64, 1030#16⟩] := by
  have hfirst := ClientStep.call (WindowX.start 1) _ ⟨[], [], [], []⟩
    (.register 2 7#64 1#64 0#64 1029#16) ⟨by decide, rfl⟩ ⟨0, fun _ _ => rfl⟩
  have hsecond := ClientStep.call (clientListing 2 7#64 1#64 0#64 1029#16 (WindowX.start 1)) _
    (Desk.call ⟨[], [], [], []⟩ (.register 2 7#64 1#64 0#64 1029#16))
    (.register 3 8#64 2#64 1#64 1030#16) ⟨by decide, rfl⟩ ⟨0, fun _ _ => rfl⟩
  exact (client_list_runs Nat.one_ne_zero
    ((Run.refl.snoc _ trivial hfirst).snoc _ trivial hsecond)).2 (.click 5#32 5#32
      (fun w => if w = 7#64 then ⟨0#32, 0#32, 10#32, 10#32⟩ else ⟨50#32, 50#32, 10#32, 10#32⟩)
      none) trivial

end Sirius.Gui
