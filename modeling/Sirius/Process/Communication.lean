import Sirius.Cfs.Names
import Sirius.Process.Exit
import Sirius.Process.Switch

/-!
# Messages between processes

`commun_switch` of `kernel/communication.c` with the functions it calls, reduced to what they do
with the `THREAD` records. `reboot` and `poweroff` write to ports; what `exectve` gets from the
image and the allocators is an argument.
-/

namespace Sirius.Process

open Library

/-- `struct communication` -/
structure Communication where
  (type pid apid : BitVec 64)
  message : Bytes

/-- `COMMUN_TYPE_REBOOT` -/
def communTypeReboot : BitVec 64 := 0x1001#64

/-- `COMMUN_TYPE_POWEROFF` -/
def communTypePoweroff : BitVec 64 := 0x1002#64

/-- `COMMUN_TYPE_EXIT` -/
def communTypeExit : BitVec 64 := 0x1003#64

/-- `COMMUN_TYPE_FOCO` -/
def communTypeFoco : BitVec 64 := 0x1004#64

/-- `COMMUN_TYPE_EXEC` -/
def communTypeExec : BitVec 64 := 0x1005#64

/-- `COMMUN_TYPE_EXEC_CHILD` -/
def communTypeExecChild : BitVec 64 := 0x1006#64

/-- An image in memory: its entry and stack, the physical address of its page tables, `user`, and
the addresses of its arguments and of its directory. -/
structure Image where
  r : Resources
  (entry stack phy user arg pwd : BitVec 64)

/-- Only an address, for examples. -/
def emptyImage (v : Nat) : Image := ⟨emptyResources v, 0, 0, 0, 0, 0, 0⟩

/-- `get_thread`: 0 when no thread has the number. -/
def getThread (n : Nat) (pid : BitVec 64) (s : Tasks) : Option Nat :=
  searchQueue s.heap (fun t => t.pid == pid) n s.threadReadyQueue

/-- The loop of `foco`: the thread that gets the keyboard, 0 for none. -/
def foco (n : Nat) (id : BitVec 64) (s : Tasks) : Option Nat :=
  searchQueue s.heap (fun t => t.id == id) n s.threadReadyQueue

/-- `exectve`, where `none` is an image that `load_elf64_header` rejects. -/
def exectve (n : Nat) (argc : BitVec 64) (image : Option Image) (s : Tasks) :
    Option (BitVec 64 × Tasks) :=
  match image with
  | none => some (0#64, s)
  | some i => do
      let (v, s) ← createThread n i.r i.entry i.stack i.phy i.user 0x11#32 argc i.arg i.pwd s
      let thread ← s.heap v
      pure (thread.pid, s)

/-- `exectve_child` for the thread at `p`. -/
def exectveChild (n : Nat) (argc : BitVec 64) (image : Option Image) (p : Nat) (s : Tasks) :
    Option (BitVec 64 × Tasks) :=
  match image with
  | none => some (0#64, s)
  | some i => do
      let (v, s) ← createThreadChild n i.r i.entry i.stack i.phy i.user 0x1#32 argc i.arg i.pwd p s
      let thread2 ← s.heap v
      pure (thread2.pid, s)

/-- The bytes of a text. -/
def text (s : String) : List Byte := s.toList.map fun c => BitVec.ofNat 8 c.toNat

/-- The reply with a text in its message. -/
def Communication.withText (ret : Communication) (s : String) : Communication :=
  { ret with message := Cfs.strcpy ret.message 0 (text s) }

/-- `commun_switch`: the reply and the threads afterwards. `argc` is what `format_argv` counts in
the message. -/
def communSwitch (n : Nat) (argc : BitVec 64) (image : Option Image)
    (commun ret : Communication) (s : Tasks) : Option (Communication × Tasks) :=
  if commun.type = communTypeReboot then some (ret.withText "reboot\n", s)
  else if commun.type = communTypePoweroff then some (ret.withText "poweroff\n", s)
  else if commun.type = communTypeExit then do
    let thread ← getThread n commun.pid s
    let s ← exit n thread s
    pure (ret.withText "exit\n", s)
  else if commun.type = communTypeFoco then do
    let _ ← foco n commun.apid s
    pure (ret.withText "foco\n", s)
  else if commun.type = communTypeExec then do
    let (_, s) ← exectve n 0#64 image { s with threadId := commun.apid }
    pure (ret.withText "exective\n", { s with threadId := 0#64 })
  else if commun.type = communTypeExecChild then do
    let thread ← getThread n commun.pid s
    let (pid, s) ← exectveChild n argc image thread s
    let ret := ret.withText "exective child\n"
    if pid = 0#64 then pure ({ ret with type := -1#64 }, s)
    else pure ({ ret with type := 0#64 }.withText "executado...", s)
  else some (ret, s)

end Sirius.Process
