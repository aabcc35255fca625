import PinguinOS.Debug.GdbSession
import PinguinOS.Klib.Printf

/-! The debug shell: lines that are typed with corrections, and the numbers in them. -/
namespace PinguinOS.Debug

open Klib (ch cString str)

def shellBufLen : Nat := 256
def shellHist : Nat := 8

/-- `sizeof(cmd)` -/
def shellCmdLen : Nat := 64

/-- The buffer of `debug_shell_run`, and `pos` of `shell_readline`. -/
structure ShellLine where
  buf : Nat → Byte
  pos : Nat

/-- A character that does not end the line. -/
def readKey (max : Nat) (l : ShellLine) (c : Byte) : ShellLine :=
  if (c = 8 ∨ c = 127) ∧ l.pos > 0 then { l with pos := l.pos - 1 }
  else if 32 ≤ c ∧ c < 127 ∧ l.pos + 1 < max then
    { buf := Function.update l.buf l.pos c, pos := l.pos + 1 }
  else l

/-- `shell_readline`, which goes on waiting when the input ends before the line. -/
def shellReadline (max : Nat) : (l : ShellLine) → (input : List Byte) →
    Option (ShellLine × List Byte)
  | _, [] => none
  | l, c :: input =>
    if c = 13 ∨ c = 10 then some ({ l with buf := Function.update l.buf l.pos 0 }, input)
    else shellReadline max (readKey max l c) input

inductive ShellCommand
  | help
  | mem
  | ps
  | pci
  | vfs
  | net
  | uptime
  | clear
  | echo (args : List Byte)
  | hexdump (addr len : BitVec 32)
  | mmap (virt : BitVec 32)
  | reboot
  | shutdown
  | panic
  | unknown (cmd : List Byte)
  deriving DecidableEq

/-- `*p <= '9' ? *p-'0' : *p-'a'+10` -/
def shellHexDigit (c : Byte) : BitVec 32 :=
  BitVec.ofInt 32 (if c.toInt ≤ 0x39 then c.toInt - 0x30 else c.toInt - 0x61 + 10)

/-- The first loop of `hexdump`, which ends behind a space. -/
def shellAddr : List Byte → BitVec 32 → BitVec 32 × List Byte
  | [], addr => (addr, [])
  | c :: p, addr =>
    if p.head? = some (ch ' ') then (addr * 16 + shellHexDigit c, p.tail)
    else shellAddr p (addr * 16 + shellHexDigit c)

/-- The second loop of `hexdump`. -/
def shellLen (p : List Byte) (len : BitVec 32) : BitVec 32 :=
  p.foldl (fun len c => len * 10 + BitVec.ofInt 32 (c.toInt - 0x30)) len

def shellHexdump (args : List Byte) : ShellCommand :=
  let (addr, p) := shellAddr args 0
  let len := shellLen p 64
  .hexdump addr (if len ≠ 0 then len else 64)

def shellMmap (args : List Byte) : ShellCommand :=
  .mmap (args.foldl (fun virt c => virt * 16 + shellHexDigit c) 0)

/-- The comparisons of `cmd`. -/
def shellDispatch (cmd args : List Byte) : ShellCommand :=
  if cmd = str "help" then .help
  else if cmd = str "mem" then .mem
  else if cmd = str "ps" then .ps
  else if cmd = str "pci" then .pci
  else if cmd = str "vfs" then .vfs
  else if cmd = str "net" then .net
  else if cmd = str "uptime" then .uptime
  else if cmd = str "clear" then .clear
  else if cmd = str "echo" then .echo args
  else if cmd = str "hexdump" then shellHexdump args
  else if cmd = str "mmap" then shellMmap args
  else if cmd = str "reboot" then .reboot
  else if cmd = str "shutdown" then .shutdown
  else if cmd = str "panic" then .panic
  else .unknown cmd

/-- The history, with the strings of its entries. -/
structure ShellHistory where
  hist : Nat → List Byte
  histCount : Nat
  histIdx : Nat

def ShellHistory.start : ShellHistory := ⟨fun _ => [], 0, 0⟩

/-- `shell_exec`: the command, if the line has one. -/
def shellExec (s : ShellHistory) (line : List Byte) : Option ShellCommand × ShellHistory :=
  let line := line.dropWhile fun c => c = ch ' '
  if line = [] then (none, s)
  else
    let cmd := (line.takeWhile fun c => c ≠ ch ' ').take (shellCmdLen - 1)
    let args := (line.drop cmd.length).dropWhile fun c => c = ch ' '
    (some (shellDispatch cmd args),
      { hist := Function.update s.hist (s.histIdx % shellHist) (line.take (shellBufLen - 1))
        histIdx := s.histIdx + 1
        histCount := if s.histCount < shellHist then s.histCount + 1 else s.histCount })

/-- `acpi_reboot`, `acpi_shutdown` and `kpanic` do not return. -/
def ShellCommand.Returns (c : ShellCommand) : Prop :=
  c ≠ .reboot ∧ c ≠ .shutdown ∧ c ≠ .panic

instance {c : ShellCommand} : Decidable c.Returns := inferInstanceAs (Decidable (_ ∧ _))

/-- Up to `n` rounds of `debug_shell_run`: the commands, and the history behind them. -/
def shellRounds : (n : Nat) → ShellHistory → (buf : Nat → Byte) → (input : List Byte) →
    List ShellCommand × ShellHistory
  | 0, s, _, _ => ([], s)
  | n + 1, s, buf, input =>
    match shellReadline shellBufLen ⟨Function.update buf 0 0, 0⟩ input with
    | none => ([], s)
    | some (l, rest) =>
      let (cmd, s) := shellExec s (cString ((List.range shellBufLen).map l.buf))
      if ∀ c ∈ cmd, c.Returns then
        let (cmds, s) := shellRounds n s l.buf rest
        (cmd.toList ++ cmds, s)
      else (cmd.toList, s)

/-- Each round takes a character at least. -/
def debugShellRun (buf : Nat → Byte) (input : List Byte) : List ShellCommand × ShellHistory :=
  shellRounds input.length .start buf input

/-! Lines that are typed with corrections. -/

def ShellLine.text (l : ShellLine) : List Byte := (List.range l.pos).map l.buf

/-- What a key does to the text of the line. -/
def editKey (max : Nat) (text : List Byte) (c : Byte) : List Byte :=
  if (c = 8 ∨ c = 127) ∧ text ≠ [] then text.dropLast
  else if 32 ≤ c ∧ c < 127 ∧ text.length + 1 < max then text ++ [c]
  else text

def ShellPrintable (c : Byte) : Prop := 32 ≤ c ∧ c < 127

/-- The key does nothing. -/
def ShellIgnored (c : Byte) : Prop := ¬ ShellPrintable c ∧ c ≠ 8 ∧ c ≠ 127 ∧ c ≠ 13 ∧ c ≠ 10

/-- Keys after which the line is as it was, while it grows by up to `room` characters. -/
inductive Corrected : (room : Nat) → (keys : List Byte) → Prop
  | nil (room : Nat) : Corrected room []
  | ignored {room : Nat} {keys : List Byte} (c : Byte) (hc : ShellIgnored c)
    (hkeys : Corrected room keys) : Corrected room (c :: keys)
  | erased {room : Nat} {inner keys : List Byte} (c b : Byte) (hc : ShellPrintable c)
    (hb : b = 8 ∨ b = 127) (hinner : Corrected room inner) (hkeys : Corrected (room + 1) keys) :
    Corrected (room + 1) (c :: inner ++ b :: keys)

/-- Keys that type the text, with corrections anywhere. -/
inductive Types : (room : Nat) → (text keys : List Byte) → Prop
  | nil {room : Nat} {keys : List Byte} (hkeys : Corrected room keys) : Types room [] keys
  | cons {room : Nat} {text before keys : List Byte} (c : Byte) (hc : ShellPrintable c)
    (hbefore : Corrected (room + 1) before) (hkeys : Types room text keys) :
    Types (room + 1) (c :: text) (before ++ c :: keys)

/-- A line as it is typed: `idle` is erased from the empty line. -/
structure TypedLine where
  idle : List Byte
  keys : List Byte
  enter : Byte
  text : List Byte

structure TypedLine.Wf (l : TypedLine) : Prop where
  idle : ∀ c ∈ l.idle, c = 8 ∨ c = 127
  keys : Types (shellBufLen - 1) l.text l.keys
  enter : l.enter = 13 ∨ l.enter = 10

def TypedLine.input (l : TypedLine) : List Byte := l.idle ++ l.keys ++ [l.enter]

/-- The lines, one after the other, up to a command that does not return. -/
def execLines : ShellHistory → List (List Byte) → List ShellCommand × ShellHistory
  | s, [] => ([], s)
  | s, text :: texts =>
    let (cmd, s) := shellExec s text
    if ∀ c ∈ cmd, c.Returns then
      let (cmds, s) := execLines s texts
      (cmd.toList ++ cmds, s)
    else (cmd.toList, s)

variable {max room n : Nat} {l : ShellLine} {text before keys inner input rest tail : List Byte}
  {c e : Byte} {s : ShellHistory} {buf : Nat → Byte} {addr : BitVec 32} {digits : List Nat}

theorem length_text : l.text.length = l.pos := by
  unfold ShellLine.text
  rw [List.length_map, List.length_range]

theorem text_put : ShellLine.text ⟨Function.update l.buf l.pos c, l.pos + 1⟩ = l.text ++ [c] := by
  unfold ShellLine.text
  dsimp only
  rw [List.range_succ, List.map_append, List.map_singleton, Function.update_self]
  congr 1
  apply List.map_congr_left
  intro i hi
  exact Function.update_of_ne (Nat.ne_of_lt (List.mem_range.mp hi)) _ _

theorem text_erase : ShellLine.text { l with pos := l.pos - 1 } = l.text.dropLast := by
  unfold ShellLine.text
  rw [List.dropLast_eq_take, List.length_map, List.length_range, ← List.map_take, List.take_range,
    Nat.min_eq_left (Nat.sub_le _ _)]

/-- The buffer follows the text. -/
theorem readKey_text : (readKey max l c).text = editKey max l.text c := by
  have hnil : l.text ≠ [] ↔ l.pos > 0 := by
    rw [← List.length_pos_iff, length_text]
  unfold readKey editKey
  simp only [hnil, length_text]
  split_ifs
  · exact text_erase
  · exact text_put
  · rfl

theorem readKeys_text : (keys.foldl (readKey max) l).text = keys.foldl (editKey max) l.text := by
  induction keys generalizing l with
  | nil => rfl
  | cons c keys ih => exact ih.trans (congrArg (fun text => keys.foldl _ text) readKey_text)

/-- The line always has room for its end. -/
theorem length_editKey (h : text.length < max) : (editKey max text c).length < max := by
  unfold editKey
  split_ifs with hback hput
  · rw [List.length_dropLast]
    omega
  · rw [List.length_append]
    exact hput.2.2
  · exact h

theorem length_editKeys (h : text.length < max) : (keys.foldl (editKey max) text).length < max := by
  induction keys generalizing text with
  | nil => exact h
  | cons c keys ih => exact ih (length_editKey h)

theorem mem_editKey (h : ∀ x ∈ text, ShellPrintable x) : ∀ x ∈ editKey max text c, ShellPrintable x := by
  unfold editKey
  split_ifs with hback hput
  · exact fun x hx => h x (List.dropLast_subset _ hx)
  · intro x hx
    rcases List.mem_append.mp hx with hx | hx
    · exact h x hx
    · rw [List.mem_singleton.mp hx]
      exact ⟨hput.1, hput.2.1⟩
  · exact h

theorem mem_editKeys (h : ∀ x ∈ text, ShellPrintable x) :
    ∀ x ∈ keys.foldl (editKey max) text, ShellPrintable x := by
  induction keys generalizing text with
  | nil => exact h
  | cons c keys ih => exact ih (mem_editKey h)

theorem editKey_put (hc : ShellPrintable c) (hroom : text.length + 1 < max) :
    editKey max text c = text ++ [c] := by
  have hne : ¬ (c = 8 ∨ c = 127) := by
    rintro (rfl | rfl)
    · exact absurd hc.1 (by decide)
    · exact absurd hc.2 (by decide)
  unfold editKey
  rw [if_neg fun h => hne h.1, if_pos ⟨hc.1, hc.2, hroom⟩]

theorem Corrected.fold (h : Corrected room keys) (hroom : text.length + room < max) :
    keys.foldl (editKey max) text = text := by
  induction h generalizing text with
  | nil room => rfl
  | ignored c hc hkeys ih =>
    have hsame : editKey max text c = text := by
      unfold editKey
      rw [if_neg fun h => h.1.elim hc.2.1 hc.2.2.1, if_neg fun h => hc.1 ⟨h.1, h.2.1⟩]
    rw [List.foldl_cons, hsame]
    exact ih hroom
  | erased c b hc hb hinner hkeys ih ih' =>
    have herase : editKey max (text ++ [c]) b = text := by
      unfold editKey
      rw [if_pos ⟨hb, List.append_ne_nil_of_right_ne_nil _ (List.cons_ne_nil _ _)⟩,
        List.dropLast_concat]
    have hlonger : (text ++ [c]).length = text.length + 1 := List.length_append
    rw [List.cons_append, List.foldl_cons, editKey_put hc (by omega), List.foldl_append,
      ih (by omega), List.foldl_cons, herase]
    exact ih' hroom

theorem Types.fold (h : Types room text keys) (hroom : before.length + room < max) :
    keys.foldl (editKey max) before = before ++ text := by
  induction h generalizing before with
  | nil hkeys => rw [hkeys.fold hroom, List.append_nil]
  | cons c hc hbefore hkeys ih =>
    have hlonger : (before ++ [c]).length = before.length + 1 := List.length_append
    rw [List.foldl_append, hbefore.fold hroom, List.foldl_cons, editKey_put hc (by omega),
      ih (by omega), List.append_assoc]
    rfl

end PinguinOS.Debug
