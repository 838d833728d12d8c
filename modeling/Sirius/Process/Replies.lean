import Sirius.Process.SchedulerLife

/-!
# What a reply depends on

`kernel_thread_communication` serves one request after the other with a single buffer for the reply.
`commun_switch` writes a text into it, and the type only for `COMMUN_TYPE_EXEC_CHILD`; a client gets
the type that some earlier request has left there, and with an unknown type also the text.
-/

namespace Sirius.Process

open Library Cfs

/-- A request and what the kernel has for it: what `format_argv` counts in the message, the image
that `exectve` gets, and the threads. -/
structure Request where
  commun : Communication
  argc : BitVec 64
  image : Option Image
  tasks : Tasks

/-- The request is served: the buffer `ret` becomes `ret'`. -/
def Serves (ret : Communication) (request : Request) (ret' : Communication) : Prop :=
  ∃ s', Returns (fun n =>
    communSwitch n request.argc request.image request.commun ret request.tasks) (ret', s')

/-- The buffer that a history of requests leaves behind. -/
def Histories : Communication → Communication → Prop := Run Serves fun _ _ => True

/-- `kernel_thread_communication` sends the buffer as a reply. -/
def Request.Replied (request : Request) : Prop :=
  request.commun.type ≠ communTypeFoco ∧ request.commun.type ≠ communTypeExit

/-- What a client sees of a reply: its type and its text. -/
def Communication.seen (reply : Communication) : BitVec 64 × List Byte :=
  (reply.type, cString reply.message 1000 0)

/-- All histories lead to the same reply to the request. -/
def SameReplies (first : Communication) (request : Request) : Prop :=
  ∀ ret₁ ret₂ reply₁ reply₂, Histories first ret₁ → Histories first ret₂ →
    Serves ret₁ request reply₁ → Serves ret₂ request reply₂ → request.Replied →
    reply₁.seen = reply₂.seen

variable {first ret reply : Communication} {request : Request}

/-! ### One request -/

/-- A text that was written into the buffer. -/
theorem with_text_seen (ret : Communication) {s : String} (hnull : 0#8 ∉ text s)
    (hlen : (text s).length < 1000) : (ret.withText s).seen = (ret.type, text s) := by
  have htext := c_string_eq (strcpy_holds ret.message 0 (text s)) hnull hlen
  rw [Communication.seen, Communication.withText, htext]

/-- Whether a request is served does not depend on the buffer, and only `COMMUN_TYPE_EXEC_CHILD`
changes its type. -/
theorem commun_switch_keeps_type (htype : request.commun.type ≠ communTypeExecChild) :
    ∃ (next : Nat → Option Tasks) (f : Communication → Communication),
      (∀ ret, (f ret).type = ret.type) ∧ ∀ n ret,
        communSwitch n request.argc request.image request.commun ret request.tasks =
          (next n).map fun s => (f ret, s) := by
  unfold communSwitch
  split_ifs with hreboot hpoweroff hexit hfoco hexec
  · exact ⟨fun _ => some request.tasks, (·.withText "reboot\n"), fun _ => rfl, fun _ _ => rfl⟩
  · exact ⟨fun _ => some request.tasks, (·.withText "poweroff\n"), fun _ => rfl, fun _ _ => rfl⟩
  · refine ⟨fun n => (getThread n request.commun.pid request.tasks).bind fun thread =>
      exit n thread request.tasks, (·.withText "exit\n"), fun _ => rfl, fun n ret => ?_⟩
    cases hthread : getThread n request.commun.pid request.tasks with
    | none => simp [hthread]
    | some thread => cases h : exit n thread request.tasks <;> simp [hthread, h]
  · refine ⟨fun n => (foco n request.commun.apid request.tasks).map fun _ => request.tasks,
      (·.withText "foco\n"), fun _ => rfl, fun n ret => ?_⟩
    cases h : foco n request.commun.apid request.tasks <;> simp [h]
  · refine ⟨fun n => (exectve n 0#64 request.image
        { request.tasks with threadId := request.commun.apid }).map fun r =>
          { r.2 with threadId := 0#64 }, (·.withText "exective\n"), fun _ => rfl, fun n ret => ?_⟩
    cases h : exectve n 0#64 request.image { request.tasks with threadId := request.commun.apid } <;>
      simp [h]
  · exact ⟨fun _ => some request.tasks, id, fun _ => rfl, fun _ _ => rfl⟩

/-- What a client sees when it has asked for a child: the number of the child decides. -/
def childReply (pid : BitVec 64) : BitVec 64 × List Byte :=
  if pid = 0#64 then (-1#64, text "exective child\n") else (0#64, text "executado...")

/-- The reply to `COMMUN_TYPE_EXEC_CHILD` does not depend on the buffer. -/
theorem commun_switch_child_seen (htype : request.commun.type = communTypeExecChild) :
    ∃ next : Nat → Option (BitVec 64 × Tasks), ∀ n ret,
      (communSwitch n request.argc request.image request.commun ret request.tasks).map
          (fun r => (r.1.seen, r.2)) = (next n).map fun r => (childReply r.1, r.2) := by
  obtain ⟨hreboot, hpoweroff, hexit, hfoco, hexec⟩ : communTypeExecChild ≠ communTypeReboot ∧
      communTypeExecChild ≠ communTypePoweroff ∧ communTypeExecChild ≠ communTypeExit ∧
      communTypeExecChild ≠ communTypeFoco ∧ communTypeExecChild ≠ communTypeExec := by decide
  refine ⟨fun n => (getThread n request.commun.pid request.tasks).bind fun thread =>
    exectveChild n request.argc request.image thread request.tasks, fun n ret => ?_⟩
  rw [communSwitch, htype, if_neg hreboot, if_neg hpoweroff, if_neg hexit, if_neg hfoco,
    if_neg hexec, if_pos rfl]
  cases hthread : getThread n request.commun.pid request.tasks with
  | none => simp [hthread]
  | some thread =>
      cases h : exectveChild n request.argc request.image thread request.tasks with
      | none => simp [hthread, h]
      | some r =>
          by_cases hpid : r.1 = 0#64
          · have hseen := with_text_seen ret (s := "exective child\n") (by decide) (by decide)
            simp only [Communication.seen, Prod.mk.injEq] at hseen
            simp [hthread, h, hpid, childReply, Communication.seen, hseen.2]
          · have hseen := with_text_seen
              { (ret.withText "exective child\n") with type := 0#64 } (s := "executado...")
              (by decide) (by decide)
            simp [hthread, h, hpid, childReply, hseen]

/-! ### Histories -/

/-- Every request but one for a child leaves the type that it finds. -/
theorem Serves.type (h : Serves ret request reply)
    (htype : request.commun.type ≠ communTypeExecChild) : reply.type = ret.type := by
  obtain ⟨next, f, hkeeps, heq⟩ := commun_switch_keeps_type htype
  obtain ⟨s', k, hk⟩ := h
  have hcall := hk k le_rfl
  dsimp only at hcall
  rw [heq, Option.map_eq_some_iff] at hcall
  obtain ⟨s, -, hreply⟩ := hcall
  rw [← (Prod.mk.inj hreply).1, hkeeps]

/-- A request that is served with one buffer is served with every buffer. -/
theorem Serves.other (h : Serves ret request reply)
    (htype : request.commun.type ≠ communTypeExecChild) (ret' : Communication) :
    ∃ reply', Serves ret' request reply' := by
  obtain ⟨next, f, -, heq⟩ := commun_switch_keeps_type htype
  obtain ⟨s', k, hk⟩ := h
  refine ⟨f ret', s', k, fun n hn => ?_⟩
  have hcall := hk n hn
  dsimp only at hcall ⊢
  rw [heq, Option.map_eq_some_iff] at hcall ⊢
  obtain ⟨s, hnext, hreply⟩ := hcall
  exact ⟨s, hnext, by rw [(Prod.mk.inj hreply).2]⟩

/-- The replies to a request for a child are the same. -/
theorem Serves.child_seen {ret' reply' : Communication} (h : Serves ret request reply)
    (h' : Serves ret' request reply') (htype : request.commun.type = communTypeExecChild) :
    reply.seen = reply'.seen := by
  obtain ⟨next, heq⟩ := commun_switch_child_seen htype
  obtain ⟨s, hreturns⟩ := h
  obtain ⟨s', hreturns'⟩ := h'
  obtain ⟨k, hk⟩ := hreturns
  obtain ⟨k', hk'⟩ := hreturns'
  have hcall := heq (max k k') ret
  rw [← heq (max k k') ret'] at hcall
  dsimp only at hk hk'
  rw [hk _ (Nat.le_max_left ..), hk' _ (Nat.le_max_right ..)] at hcall
  exact (Prod.mk.inj (Option.some.inj hcall)).1

/-- A request for a child of the kernel thread, which is the only thread. -/
def childRequest (image : Option Image) : Request where
  commun := messageOf communTypeExecChild 0#64
  argc := 0#64
  image := image
  tasks := threadSetup (emptyResources 1) 0#64 zeroTasks

/-- A request for a child of the kernel thread is served when two steps in the queue are enough. -/
theorem child_request_serves {image : Option Image} {r : Communication × Tasks}
    (h : ∀ n, communSwitch (n + 2) 0#64 image (messageOf communTypeExecChild 0#64) ret
      (threadSetup (emptyResources 1) 0#64 zeroTasks) = some r) :
    Serves ret (childRequest image) r.1 := by
  exact ⟨r.2, Returns.of_add 2 h⟩

/-- An image that the loader rejects leaves the type -1. -/
theorem child_request_fails (ret : Communication) :
    ∃ reply, Serves ret (childRequest none) reply ∧ reply.type = -1#64 :=
  ⟨_, child_request_serves fun _ => rfl, rfl⟩

/-- An image that is loaded leaves the type 0. -/
theorem child_request_succeeds (ret : Communication) :
    ∃ reply, Serves ret (childRequest (some (emptyImage 2))) reply ∧ reply.type = 0#64 :=
  ⟨_, child_request_serves fun _ => rfl, rfl⟩

/-! ### All histories -/

/-- Of two histories, the last request of one has left the type -1 and that of the other the type
0. -/
theorem histories_differ (first : Communication) :
    ∃ ret₁ ret₂, Histories first ret₁ ∧ Histories first ret₂ ∧ ret₁.type = -1#64 ∧
      ret₂.type = 0#64 := by
  obtain ⟨ret₁, hserves₁, htype₁⟩ := child_request_fails first
  obtain ⟨ret₂, hserves₂, htype₂⟩ := child_request_succeeds first
  exact ⟨ret₁, ret₂, Run.refl.snoc _ trivial hserves₁, Run.refl.snoc _ trivial hserves₂, htype₁,
    htype₂⟩

end Sirius.Process
