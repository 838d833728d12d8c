import Sirius.Exec.Argv
import Sirius.Process.Communication

/-!
# From a command line to the arguments of a program

The shell splits a command line in place (`set_argv`), joins the words again (`cmd_run`) and sends
them to the kernel behind its working directory. `commun_switch` splits them with `format_argv`, and
`exectve_child` copies them into the memory of the new program. `exectve` of the user library builds
the same message for other programs; it copies every word to the start of its buffer.
-/

namespace Sirius.Exec

open Library Cfs Process

/-- `COUNT_ARGV` -/
def countArgv : Nat := 32

/-- The buffers in which the words are joined. -/
def joinSize : Nat := countArgv * 8 + 256 * countArgv + 8

/-- The message of a request to execute a program: the address of the image, the working directory
and the arguments. The structure was cleared. -/
def execMessage (appMemory : Nat) (pwd v : List Byte) : Bytes :=
  let message := writeLong (fun _ => 0#8) 0 appMemory
  let message := strcpy message 8 pwd
  strcpy message (8 + (pwd.length + 1)) v

/-! ### The user library -/

/-- The loop of `exectve` over the arguments: `tmp` and the buffer `v`. -/
def exectveLoop : (argv : List (List Byte)) → (tmp : Nat) → (v : Bytes) → Nat × Bytes
  | [], tmp, v => (tmp, v)
  | a :: argv, tmp, v =>
      let v := strcpy v 0 a
      let tmp := tmp + a.length
      exectveLoop argv (tmp + 1) (Function.update v tmp space)

/-- `exectve` of the user library: the message that it sends. `v` is the memory from `malloc`, and
`fp` says that the file could be opened. -/
def User.exectve (argv : List (List Byte)) (type : Byte) (appId pid : BitVec 64) (pwd : List Byte)
    (v : Bytes) (appMemory : Nat) (fp : Bool) : Option Communication :=
  if argv.length < 1 then none
  else
    let (tmp, v) := exectveLoop argv 0 v
    let v := Function.update v (tmp - 1) 0#8
    let message := execMessage appMemory pwd (cString v joinSize 0)
    if type = 0#8 then if fp then some ⟨communTypeExec, 0, appId, message⟩ else none
    else if type = 1#8 then if fp then some ⟨communTypeExecChild, pid, 0, message⟩ else none
    else none

/-! ### The shell -/

/-- `while(*us != '\0' && *us != ' ') us ++;`, in a line that ends within `n` bytes. -/
def wordEnd (line : Bytes) : (n us : Nat) → Nat
  | 0, us => us
  | n + 1, us => if line us ≠ 0#8 ∧ line us ≠ space then wordEnd line n (us + 1) else us

/-- `while(*us == ' ') us ++;` -/
def skipSpaces (line : Bytes) : (n us : Nat) → Nat
  | 0, us => us
  | n + 1, us => if line us = space then skipSpaces line n (us + 1) else us

/-- The size of the buffer that the shell reads a line into. -/
def lineSize : Nat := 0x1000

/-- The loop of `set_argv`: the number of words, `argv_pointer` and the line. -/
def setArgvLoop : (n i us : Nat) → (argvPointer : Nat → Nat) → (line : Bytes) →
    Nat × (Nat → Nat) × Bytes
  | 0, i, _, argvPointer, line => (i, argvPointer, line)
  | n + 1, i, us, argvPointer, line =>
      let argvPointer := Function.update argvPointer i us
      let us := wordEnd line lineSize us
      if line us = 0#8 then (i + 1, argvPointer, line)
      else
        let line := Function.update line us 0#8
        let us := skipSpaces line lineSize (us + 1)
        if line us = 0#8 then (i + 1, argvPointer, line)
        else setArgvLoop n (i + 1) us argvPointer line

/-- `set_argv` -/
def setArgv (line : Bytes) : Nat × (Nat → Nat) × Bytes :=
  setArgvLoop countArgv 0 0 (fun _ => 0) line

/-- The loop of `cmd_run` over `n` arguments from number `i` on: `v` and the buffer. -/
def joinLoop (line : Bytes) (argv : Nat → Nat) : (n i v : Nat) → (buffer : Bytes) → Nat × Bytes
  | 0, _, v, buffer => (v, buffer)
  | n + 1, i, v, buffer =>
      let word := cString line lineSize (argv i)
      let buffer := strcpy buffer v word
      let v := v + word.length
      joinLoop line argv n (i + 1) (v + 1) (Function.update buffer v space)

/-- The message that `cmd_run` builds. -/
def runMessage (argc : Nat) (argv : Nat → Nat) (line : Bytes) (pwd : List Byte) (buffer : Bytes)
    (appMemory : Nat) : Bytes :=
  let (v, buffer) := joinLoop line argv argc 0 0 buffer
  let buffer := Function.update buffer (v - 1) 0#8
  execMessage appMemory pwd (cString buffer joinSize 0)

/-- `cmd_run`: the message that it sends. -/
def cmdRun (argc : Nat) (argv : Nat → Nat) (line : Bytes) (pid : BitVec 64) (pwd : List Byte)
    (buffer : Bytes) (appMemory : Nat) (fp : Bool) : Option Communication :=
  if argc < 1 then none
  else if line (argv 0 + 2) = 0x30#8 then none
  else if fp then
    some ⟨communTypeExecChild, pid, 0, runMessage argc argv line pwd buffer appMemory⟩
  else none

/-! ### The kernel -/

/-- The loop of `commun_switch` that looks for the end of the directory. -/
def optionLoop (message : Bytes) : (i option : Nat) → Nat × Nat
  | 0, option => (0, option)
  | i + 1, option =>
      if message option = 0#8 then (i + 1, option + 1) else optionLoop message i (option + 1)

/-- What `commun_switch` reads from the message of `COMMUN_TYPE_EXEC_CHILD`: `argc`, `argv`, which
may be 0, and the page at `memory`. `pwd` is the string at 8. -/
def childArguments (memory : Nat) (message tmp page : Bytes) : Nat × Option Nat × Bytes :=
  let (i, option) := optionLoop message 1000 8
  if i ≤ 0 then (0, none, page)
  else
    let (argc, page) := formatArgv memory message option tmp page
    (argc, some memory, page)

/-- `argv_ptr` of `exectve_child`. -/
def ProgramHeader.childArgvPtr (phdr : ProgramHeader) : Nat :=
  ((0x8000000000 + phdr.physize - (appStakSize + appArgSize)) % 2 ^ 64).toNat

/-- `APP_ARG_COUNT` -/
def appArgCount : Nat := 128

/-- `APP_ARG_LEN` -/
def appArgLen : Nat := 256

/-- The loop that fills in `arg` for `n` more arguments from number `i` on. -/
def argLoop (arg argvPtr : Nat) : (n i : Nat) → Bytes → Bytes
  | 0, _, program => program
  | n + 1, i, program =>
      argLoop arg argvPtr n (i + 1) (writeLong program (arg + 8 * i) (argvPtr + i * appArgLen))

/-- The loop that copies `n` more arguments from number `i` on. -/
def argumentLoop (arg argv : Nat) (page : Bytes) : (n i : Nat) → Bytes → Bytes
  | 0, _, program => program
  | n + 1, i, program =>
      argumentLoop arg argv page n (i + 1)
        (strcpy program (readLong program (arg + 8 * i))
          (cString page lineSize (readLong page (argv + 8 * i))))

/-- The end of `exectve_child` before the thread is created: the directory and the arguments in the
memory of the program. `page` is the memory of the kernel that `argv` points to. -/
def putArguments (argvPtr argc : Nat) (argv : Option Nat) (pwd : List Byte) (page program : Bytes) :
    Bytes :=
  let arg := argvPtr + 0x1000
  let program := argLoop arg (argvPtr + 0x2000) appArgCount 0 program
  let program := strcpy program argvPtr pwd
  match argv with
  | none => program
  | some argv => argumentLoop arg argv page argc 0 program

/-- `COMMUN_TYPE_EXEC_CHILD` from the message to the arguments of the new program: `argc` and the
memory of the program. -/
def execChild (phdr : ProgramHeader) (memory : Nat) (message tmp page program : Bytes) :
    Nat × Bytes :=
  let (argc, argv, page) := childArguments memory message tmp page
  (argc, putArguments phdr.childArgvPtr argc argv (cString message 1000 8) page program)

end Sirius.Exec
