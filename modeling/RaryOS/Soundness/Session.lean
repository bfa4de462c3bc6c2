import RaryOS.Soundness.Console
import RaryOS.Soundness.ShellTranscript

/-! # A session

The shell on the kernel's console: `getchar` gives it what is typed, and the screen shows what it has asked for. So at
every moment of a session the screen is a function of the keys and of how much has been written and asked for. A text
may be written by any number of system calls; only its characters count.
-/

namespace RaryOS.Soundness

open RaryOS.Core RaryOS.Model RaryOS.Model.Shell

namespace ConsoleEvent

/-- What a system call asks of the kernel. -/
def request : ConsoleEvent → Option Call
  | call before r _ _ =>
    if Asks effWrite r then some (.write (programBytes before.memory r.rdi r.rsi.toNat))
    else if Asks effIoctl r then some (.ioctl r.rdi)
    else none
  | _ => none

/-- What a read of one character gives to `getchar`. -/
def answer : ConsoleEvent → Option UserLibc.ReadAnswer
  | call _ r after r' => if Asks effRead r then some ⟨r'.rax, after.memory r.rdi.toNat⟩ else none
  | _ => none

/-- Every read is one of `getchar`. -/
def ReadsOne : ConsoleEvent → Prop
  | call _ r _ _ => Asks effRead r → r.rsi = 1
  | _ => True

end ConsoleEvent

def requests (es : List ConsoleEvent) : List Call := es.filterMap ConsoleEvent.request
def answers (es : List ConsoleEvent) : List UserLibc.ReadAnswer := es.filterMap ConsoleEvent.answer

/-- A character that is written, or another request. -/
inductive Output where
  | char (c : BitVec 8)
  | ioctl (cmd : BitVec 64)
deriving DecidableEq

/-- What comes out of a list of calls, however the texts are spread over them. -/
def outputs (calls : List Call) : List Output :=
  calls.flatMap fun
    | .write bytes => bytes.map .char
    | .ioctl cmd => [.ioctl cmd]

/-- What an output does to the page. -/
def drawOutput (color : BitVec 8) (p : Page (BitVec 16)) : Output → Page (BitVec 16)
  | .char c => p.type (vgaStyle color) c
  | .ioctl cmd => if cmd = ioctlClear then blankPage else p

/-- So far the run has put out the beginning of what a program puts out. -/
def AsksFirst (program : Prog (List Call)) (m : Memory) (es : List ConsoleEvent) : Prop :=
  ∃ calls, (program.run m).value = some calls ∧ outputs (requests es) <+: outputs calls

section Screen

variable {fill : Memory → BitVec 64 → Memory} {w w₀ w' : Console} {es : List ConsoleEvent} {color : BitVec 8}
  {p : Page (BitVec 16)}

@[simp] theorem outputs_nil : outputs [] = [] := rfl

@[simp] theorem outputs_write (bytes : List (BitVec 8)) (calls : List Call) :
    outputs (.write bytes :: calls) = bytes.map .char ++ outputs calls := List.flatMap_cons

@[simp] theorem outputs_ioctl (cmd : BitVec 64) (calls : List Call) :
    outputs (.ioctl cmd :: calls) = .ioctl cmd :: outputs calls := List.flatMap_cons

@[simp] theorem outputs_append (first second : List Call) :
    outputs (first ++ second) = outputs first ++ outputs second := List.flatMap_append

theorem requests_append (es later : List ConsoleEvent) : requests (es ++ later) = requests es ++ requests later :=
  List.filterMap_append

theorem requests_singleton (e : ConsoleEvent) : requests [e] = e.request.toList := by
  rw [requests, List.filterMap_cons]
  cases e.request <;> rfl

/-- A text is written one character after the other. -/
theorem foldl_drawOutput_chars (color : BitVec 8) (p : Page (BitVec 16)) (bytes : List (BitVec 8)) :
    (bytes.map Output.char).foldl (drawOutput color) p = p.write (vgaStyle color) bytes := List.foldl_map

/-- A step draws what it asks for. -/
theorem ConsoleStep.draws {e : ConsoleEvent} (step : ConsoleStep fill w e w') (shows_ : ShowsPage color w.terminal p) :
    ShowsPage color w'.terminal ((outputs e.request.toList).foldl (drawOutput color) p) := by
  cases step with
  | typed byte => exact shows_
  | tick => exact shows_
  | program m => exact shows_
  | @call _ r r' returns =>
    rw [ConsoleEvent.request]
    rcases call_cases returns with ⟨writes, rfl⟩ | ⟨reads, -, got, taken, -⟩ | ⟨controls, clears, rfl⟩ |
      ⟨notWrite, -, notClear, m, rfl⟩
    · rw [if_pos writes, Option.toList_some, outputs_write, outputs_nil, List.append_nil, foldl_drawOutput_chars]
      exact shows_.write _
    · have notWrite : ¬Asks effWrite r := fun writes => absurd (writes.symm.trans reads) (by decide)
      have notIoctl : ¬Asks effIoctl r := fun controls => absurd (controls.symm.trans reads) (by decide)
      rw [if_neg notWrite, if_neg notIoctl]
      have same : w'.terminal = w.terminal := by
        have done := readInput_terminal r.rdi r.rsi.toNat w 0
        rwa [taken] at done
      exact same ▸ shows_
    · have notWrite : ¬Asks effWrite r := fun writes => absurd (writes.symm.trans controls) (by decide)
      rw [if_neg notWrite, if_pos controls, clears]
      exact shows_.painted ▸ .clear shows_.textMode
    · rw [if_neg notWrite]
      split
      · next controls =>
        have keeps : drawOutput color p (.ioctl r.rdi) = p := if_neg fun clears => notClear ⟨controls, clears⟩
        rw [Option.toList_some, outputs_ioctl, List.foldl_cons, keeps]
        exact shows_
      · exact shows_

/-- The screen shows what the run has put out. -/
theorem run_draws (run : Path (ConsoleStep fill) w₀ es w) (shows_ : ShowsPage color w₀.terminal p) :
    ShowsPage color w.terminal ((outputs (requests es)).foldl (drawOutput color) p) := by
  apply run.snoc_induction fun es w => ShowsPage color w.terminal ((outputs (requests es)).foldl (drawOutput color) p)
  · exact shows_
  · intro es mid e t _ shown step
    rw [requests_append, requests_singleton, outputs_append, List.foldl_append]
    exact step.draws shown

/-- A read of one character returns 1 and the character that it delivers. -/
theorem answer_of_served {e : ConsoleEvent} (served : e.Served) (one : e.ReadsOne) :
    e.answer.toList = e.delivered.map fun c => ⟨1, c⟩ := by
  cases e with
  | typed c => rfl
  | tick => rfl
  | program m => rfl
  | call before r after r' =>
    rw [ConsoleEvent.answer, ConsoleEvent.delivered]
    split
    · next reads =>
      obtain ⟨nonempty, count⟩ := served reads
      have positive := List.length_pos_iff.mpr nonempty
      have length : r.rsi.toNat = 1 := by
        rw [one reads]
        rfl
      rw [length, Nat.min_eq_left positive] at count
      have value : r'.rax = 1 := BitVec.eq_of_toNat_eq count
      rw [count, value]
      have address : r.rdi + BitVec.ofNat 64 0 = r.rdi := BitVec.add_zero _
      rw [programBytes, List.range_one, List.map_singleton, address]
      rfl
    · rfl

/-- `getchar` gives the program what its reads deliver. -/
theorem answers_eq (served : ∀ e ∈ es, e.Served) (one : ∀ e ∈ es, e.ReadsOne) :
    answers es = (deliveredBytes es).map fun c => ⟨1, c⟩ := by
  induction es with
  | nil => rfl
  | cons e rest ih =>
    rw [List.forall_mem_cons] at served one
    have first := answer_of_served served.1 one.1
    have cons : answers (e :: rest) = e.answer.toList ++ answers rest := by
      rw [answers, List.filterMap_cons]
      cases e.answer <;> rfl
    have bytes : deliveredBytes (e :: rest) = e.delivered ++ deliveredBytes rest := List.flatMap_cons
    rw [cons, first, ih served.2 one.2, bytes, List.map_append]

end Screen

section Shell

variable {fill : Memory → BitVec 64 → Memory} {w w₀ : Console} {es : List ConsoleEvent} {color : BitVec 8}
  {p : Page (BitVec 16)} {img : Image} {fuel : ℕ} {stream : ℕ → UserLibc.ReadAnswer} {start : InfoSources}
  {sources : ℕ → InfoSources} {lines : List ℕ} {host cpu gpu kernel : List (BitVec 8)}

/-- At every moment of a session in text mode in which what is typed so far is the beginning of the shell's stream of
keys, and which keeps up with it: `getchar` has given the shell the beginning of this stream, and the screen shows,
from the page on which the session began, as much as has come out so far of clearing the screen, the system
information, and for each line the prompt, the echo and the answer. -/
theorem session_on_screen {b : InputBuffer} (placed : Placed img) (loaded : Loaded img w₀.memory)
    (enough : lineMax ≤ fuel) (keys : LinesAt stream 0 lines) (enoughKeys : ∀ n ∈ lines, n < fuel)
    (fillsStart : FillsInfo img w₀.memory fuel start host cpu gpu kernel)
    (fills : ∀ k, FillsInfo img w₀.memory fuel (sources k) host cpu gpu kernel)
    (shows_ : ShowsPage color w₀.terminal p) (empty : w₀.input = inputInit b)
    (run : Path (ConsoleStep fill) w₀ es w) (one : ∀ e ∈ es, e.ReadsOne) (keepsUp : KeepsUp es)
    (typed : ∀ k c, (typedChars es)[k]? = some c → stream k = ⟨1, charByte c⟩)
    (asks : AsksFirst (main img fuel start sources stream lines.length) w₀.memory es) :
    (∀ k a, (answers es)[k]? = some a → stream k = a) ∧
      ShowsPage color w.terminal
        (((outputs (.ioctl ioctlClear :: infoCalls start host cpu gpu kernel ++
            transcript (fun k => infoCalls (sources k) host cpu gpu kernel) stream 0 lines)).take
          (outputs (requests es)).length).foldl (drawOutput color) p) := by
  obtain ⟨accepted, removed, inv⟩ := consoleInv_of_run empty run
  constructor
  · intro k a found
    rw [answers_eq inv.served one, inv.delivered, inv.all keepsUp, List.map_map, List.getElem?_map] at found
    obtain ⟨c, taken, rfl⟩ := Option.map_eq_some_iff.mp found
    rw [List.getElem?_take] at taken
    split at taken
    · exact typed k c taken
    · cases taken
  · obtain ⟨calls, ended, first⟩ := asks
    obtain ⟨calls', ended', made, -, -⟩ := main_ensures placed loaded enough keys enoughKeys
      (fillsStart.prints placed loaded enough w₀.memory fun _ _ => rfl) fun k => (fills k).prints placed loaded enough
    obtain rfl := Option.some.inj (ended.symm.trans ended')
    rw [← made, ← List.prefix_iff_eq_take.mp first]
    exact run_draws run shows_

end Shell

/-! ## A session up to the second prompt -/

section Stretch

variable {fill : Memory → BitVec 64 → Memory} {w w' : Console}

/-- A stretch of a session: what it puts out, the keys that are typed in it, and how many reads are answered. -/
structure Stretch (fill : Memory → BitVec 64 → Memory) (w w' : Console) (es : List ConsoleEvent) (out : List Output)
    (keys : List ℕ) (reads : ℕ) : Prop where
  run : Path (ConsoleStep fill) w es w'
  out : outputs (requests es) = out
  keys : typedChars es = keys
  reads : (answers es).length = reads
  one : ∀ e ∈ es, e.ReadsOne

theorem Stretch.append {mid : Console} {es es' : List ConsoleEvent} {out out' : List Output} {keys keys' : List ℕ}
    {reads reads' : ℕ} (first : Stretch fill w mid es out keys reads)
    (second : Stretch fill mid w' es' out' keys' reads') :
    Stretch fill w w' (es ++ es') (out ++ out') (keys ++ keys') (reads + reads') := by
  refine ⟨first.run.append second.run, ?_, ?_, ?_, List.forall_mem_append.mpr ⟨first.one, second.one⟩⟩
  · rw [requests_append, outputs_append, first.out, second.out]
  · rw [typedChars, List.filterMap_append]
    exact congr (congrArg _ first.keys) second.keys
  · rw [answers, List.filterMap_append, List.length_append]
    exact congr (congrArg _ first.reads) second.reads

/-- A system call that reads nothing. -/
theorem Stretch.call {r r' : Regs} (notRead : ¬Asks effRead r)
    (returns : exceptionHandler (defaultHandlers (Console.services fill)) w r = some (w', r')) :
    Stretch fill w w' [.call w r w' r'] (outputs (ConsoleEvent.call w r w' r').request.toList) [] 0 := by
  refine ⟨.cons (.call returns) (.nil _), by rw [requests_singleton], rfl, ?_, ?_⟩
  · have none : (ConsoleEvent.call w r w' r').answer = none := if_neg notRead
    rw [answers, List.filterMap_cons, none]
    rfl
  · exact List.forall_mem_singleton.mpr fun reads => absurd reads notRead

variable (fill)

/-- `putchar` with its variable at 0x1000. -/
def putcharCall : Regs := ⟨1, 0x1000, 1, 0, 0, 0x80⟩

/-- `getchar`, also there. -/
def getcharCall : Regs := ⟨2, 0x1000, 1, 0, 0, 0x80⟩

/-- `sys_ioctl` with a pointer for those that need one. -/
def ioctlCall (cmd : BitVec 64) : Regs := ⟨4, cmd, 0x2000, 0, 0, 0x80⟩

theorem Stretch.putchar (w : Console) (c : BitVec 8) :
    ∃ es w', Stretch fill w w' es [.char c] [] 0 ∧ w'.input = w.input := by
  have stored : Stretch fill w { w with memory := w.memory.store8 0x1000 c } [.program (w.memory.store8 0x1000 c)]
      [] [] 0 :=
    ⟨.cons (.program w _) (.nil _), rfl, rfl, rfl, List.forall_mem_singleton.mpr trivial⟩
  have byte : w.memory.store8 0x1000 c 0x1000 = c := Memory.store8_apply_same ..
  generalize here : ({ w with memory := w.memory.store8 0x1000 c } : Console) = mid at stored
  have wrote : Stretch fill mid (mid.terminalWrite 0x1000 1)
      [.call mid putcharCall (mid.terminalWrite 0x1000 1) { putcharCall with rax := 1 }]
      [.char (mid.memory 0x1000)] [] 0 := Stretch.call (by decide) rfl
  have same : mid.memory 0x1000 = c ∧ mid.input = w.input := by
    rw [← here]
    exact ⟨byte, rfl⟩
  rw [same.1] at wrote
  exact ⟨_, _, stored.append wrote, same.2⟩

theorem Stretch.ioctl (w : Console) {cmd : BitVec 64} (calm : cmd = ioctlClear ∨ cmd = ioctlGetInfo) :
    ∃ es w', Stretch fill w w' es [.ioctl cmd] [] 0 ∧ w'.input = w.input := by
  rcases calm with rfl | rfl
  · exact ⟨_, _, Stretch.call (r := ioctlCall ioctlClear) (by decide) rfl, rfl⟩
  · exact ⟨_, _, Stretch.call (r := ioctlCall ioctlGetInfo) (by decide) rfl, rfl⟩

theorem getchar_returns (available : inputAvailable w.input = true) :
    exceptionHandler (defaultHandlers (Console.services fill)) w getcharCall =
      some ((Console.readInput 0x1000 1 w 0).1,
        { getcharCall with rax := BitVec.ofNat 64 (Console.readInput 0x1000 1 w 0).2 }) := by
  have reads : Console.read w 0x1000 1 = some ((Console.readInput 0x1000 1 w 0).1,
      BitVec.ofNat 64 (Console.readInput 0x1000 1 w 0).2) := if_pos available
  have step : effectCoreHandler (Console.services fill) w getcharCall.effect =
      some ((Console.readInput 0x1000 1 w 0).1,
        { getcharCall.effect with result := BitVec.ofNat 64 (Console.readInput 0x1000 1 w 0).2 }, effectHandled) := by
    change (Console.read w 0x1000 1).map _ = _
    rw [reads]
    rfl
  exact exceptionHandler_eq rfl (performWith_ends step (Or.inl rfl) [])

/-- A waiting character is read. -/
theorem Stretch.getchar {accepted : List ℕ} {removed : ℕ} (queue : Queue w.input accepted removed)
    (waiting : removed < accepted.length) :
    ∃ es w', Stretch fill w w' es [] [] 1 ∧ Queue w'.input accepted (removed + 1) := by
  have room := queue.ring.room
  obtain ⟨w', taken, queue', -⟩ := @readInput_takes accepted 0x1000 1 w removed 0 queue (by omega)
  have one : ((accepted.drop removed).take 1).length = 1 := by
    rw [List.length_take, List.length_drop]
    omega
  rw [one] at queue'
  refine ⟨_, _, ⟨.cons (.call (getchar_returns fill (queue.available_iff.mpr waiting))) (.nil _), rfl, rfl, rfl,
    List.forall_mem_singleton.mpr fun _ => rfl⟩, ?_⟩
  rw [taken]
  exact queue'

/-- An output after which the kernel goes on. -/
def Calm : Output → Prop
  | .char _ => True
  | .ioctl cmd => cmd = ioctlClear ∨ cmd = ioctlGetInfo

/-- A program can put out whatever it likes. -/
theorem Stretch.puts {out : List Output} (calm : ∀ o ∈ out, Calm o) (w : Console) :
    ∃ es w', Stretch fill w w' es out [] 0 ∧ w'.input = w.input := by
  induction out generalizing w with
  | nil => exact ⟨[], w, ⟨.nil w, rfl, rfl, rfl, List.forall_mem_nil _⟩, rfl⟩
  | cons o rest ih =>
    rw [List.forall_mem_cons] at calm
    have first : ∃ es w', Stretch fill w w' es [o] [] 0 ∧ w'.input = w.input := by
      cases o with
      | char c => exact Stretch.putchar fill w c
      | ioctl cmd => exact Stretch.ioctl fill w calm.1
    obtain ⟨es, mid, stretch, same⟩ := first
    obtain ⟨es', w', stretch', same'⟩ := ih calm.2 mid
    exact ⟨_, _, stretch.append stretch', same'.trans same⟩

/-- A key is typed, read by the waiting program, and echoed. -/
theorem Stretch.key {accepted : List ℕ} (queue : Queue w.input accepted accepted.length) {c : ℕ} (byte : c < 2 ^ 8) :
    ∃ es w', Stretch fill w w' es [.char (charByte c)] [c] 1 ∧
      Queue w'.input (accepted ++ [c]) (accepted ++ [c]).length := by
  have typed : Stretch fill w { w with input := inputPush w.input c } [.typed c] [] [c] 0 :=
    ⟨.cons (.typed w byte) (.nil _), rfl, rfl, rfl, List.forall_mem_singleton.mpr trivial⟩
  have waiting : Queue (inputPush w.input c) (accepted ++ [c]) accepted.length := by
    rcases queue.push c with ⟨full, -⟩ | ⟨-, pushed⟩
    · omega
    · exact pushed
  have length : (accepted ++ [c]).length = accepted.length + 1 := List.length_append
  obtain ⟨es, mid, read, empty⟩ :=
    Stretch.getchar fill (w := { w with input := inputPush w.input c }) waiting (by omega)
  obtain ⟨es', w', echo, same⟩ := Stretch.putchar fill mid (charByte c)
  rw [length]
  exact ⟨_, w', (typed.append read).append echo, same ▸ empty⟩

/-- A line is typed, read and echoed. -/
theorem Stretch.line {accepted keys : List ℕ} (queue : Queue w.input accepted accepted.length)
    (bytes : ∀ c ∈ keys, c < 2 ^ 8) :
    ∃ es w', Stretch fill w w' es (keys.map fun c => .char (charByte c)) keys keys.length := by
  induction keys generalizing w accepted with
  | nil => exact ⟨[], w, .nil w, rfl, rfl, rfl, List.forall_mem_nil _⟩
  | cons c rest ih =>
    rw [List.forall_mem_cons] at bytes
    obtain ⟨es, mid, first, queue'⟩ := Stretch.key fill queue bytes.1
    obtain ⟨es', w', others⟩ := ih queue' bytes.2
    rw [List.length_cons, Nat.add_comm]
    exact ⟨_, w', first.append others⟩

end Stretch

/-- The kernel before the shell starts. -/
def sampleConsole : Console where
  memory := sampleShellMemory
  terminal := sampleGreyTerminal.clear
  input := inputInit {}

/-- The system information of the sample. -/
def sampleShellInfo (ticks : ℕ) : List Call :=
  infoCalls (bareSources ticks) (hostText unknown unknown) unknownCpu unknownGpu [ch '1']

/-- The line `echo a` as it is typed. -/
def sampleLine : List ℕ := (str "echo a\n").map BitVec.toNat

theorem texts_calm (texts : List (List (BitVec 8))) : ∀ o ∈ outputs (texts.map Call.write), Calm o := by
  induction texts with
  | nil => exact List.forall_mem_nil _
  | cons text rest ih =>
    rw [List.map_cons, outputs_write, List.forall_mem_append]
    refine ⟨fun o among => ?_, ih⟩
    obtain ⟨c, _, rfl⟩ := List.mem_map.mp among
    trivial

theorem sampleShellInfo_calm (ticks : ℕ) : ∀ o ∈ outputs (sampleShellInfo ticks), Calm o := by
  rw [sampleShellInfo, infoCalls, outputs_ioctl, List.forall_mem_cons]
  exact ⟨Or.inr rfl, texts_calm _⟩

/-- The round in which `echo a` is typed. -/
theorem sample_round (info : List Call) : roundCalls info sampleKeys 6 =
    .write (str "> ") :: ((str "echo a\n").map fun c => .write [c]) ++ [.write [ch 'a'], .write [ch '\n']] := by
  have line : echoed sampleKeys lineMax 6 ++ [ch '\n'] = str "echo a\n" := by decide
  have args : lineArgs sampleKeys 6 = [str "echo", [ch 'a']] := by decide
  have found : (cmds.find? fun c => str c.name = str "echo") = some ⟨"echo", "print arguments", .echo⟩ := rfl
  rw [roundCalls, line, args, respond, found]
  rfl

/-- All that comes out up to the answer to the first line. -/
def sampleCalls : List Call := .ioctl ioctlClear :: sampleShellInfo 0 ++ roundCalls (sampleShellInfo 0) sampleKeys 6

theorem sampleCalls_outputs : outputs sampleCalls =
    outputs (.ioctl ioctlClear :: sampleShellInfo 0 ++ [str "> "].map .write) ++
      sampleLine.map (fun c => .char (charByte c)) ++ outputs ([[ch 'a'], [ch '\n']].map .write) := by
  have line : outputs ((str "echo a\n").map fun c => .write [c]) = sampleLine.map fun c => .char (charByte c) := by
    decide
  rw [sampleCalls, sample_round]
  simp only [outputs_append, outputs_write, outputs_nil, line, List.map_cons, List.map_nil, List.append_assoc,
    List.append_nil]

/-- The session in which `echo a` is typed at the first prompt, up to the shell's answer. -/
theorem session_on_screen_sample :
    ∃ es w, Path (ConsoleStep fun m _ => m) sampleConsole es w ∧ (answers es).length = 7 ∧
      (∀ k a, (answers es)[k]? = some a → sampleKeys k = a) ∧
      ShowsPage 7 w.terminal ((outputs sampleCalls).foldl (drawOutput 7) blankPage) := by
  have keys : LinesAt sampleKeys 0 [6, 0] := ⟨by decide, by decide, by decide, by decide, trivial⟩
  have short : ∀ n ∈ [6, 0], n < 128 := by decide
  -- the session
  have calm : ∀ o ∈ outputs (.ioctl ioctlClear :: sampleShellInfo 0 ++ [str "> "].map .write), Calm o := by
    rw [List.cons_append, outputs_ioctl, outputs_append, List.forall_mem_cons, List.forall_mem_append]
    exact ⟨Or.inl rfl, sampleShellInfo_calm 0, texts_calm [str "> "]⟩
  obtain ⟨es₁, w₁, first, same⟩ := Stretch.puts (fun m _ => m) calm sampleConsole
  have empty : Queue w₁.input [] 0 := by
    rw [same]
    exact .init {}
  obtain ⟨es₂, w₂, second⟩ := Stretch.line (fun m _ => m) empty (show ∀ c ∈ sampleLine, c < 2 ^ 8 by decide)
  obtain ⟨es₃, w₃, third, -⟩ := Stretch.puts (fun m _ => m) (texts_calm [[ch 'a'], [ch '\n']]) w₂
  have session := (first.append second).append third
  generalize es₁ ++ es₂ ++ es₃ = es at session
  have out : outputs (requests es) = outputs sampleCalls := session.out.trans sampleCalls_outputs.symm
  have all : typedChars es = sampleLine := session.keys
  have keepsUp : KeepsUp es := by
    intro done before
    have few : (typedChars done).length ≤ (typedChars es).length :=
      (before.sublist.filterMap ConsoleEvent.char).length_le
    have seven : (typedChars es).length = 7 := congrArg List.length all
    omega
  have typed : ∀ k c, (typedChars es)[k]? = some c → sampleKeys k = ⟨1, charByte c⟩ := by
    rw [all]
    intro k c found
    obtain ⟨inside, rfl⟩ := List.getElem?_eq_some_iff.mp found
    have seven : k < 7 := inside
    interval_cases k <;> rfl
  obtain ⟨calls, ended, made, -, -⟩ := main_ensures sampleShellImage_placed sampleShellImage_loaded (by decide) keys
    short ((sampleShellImage_fills 0).prints sampleShellImage_placed sampleShellImage_loaded (by decide)
      sampleShellMemory fun _ _ => rfl)
    fun k => (sampleShellImage_fills k).prints sampleShellImage_placed sampleShellImage_loaded (by decide)
  have whole : ∃ later, calls = sampleCalls ++ later := by
    rw [made, transcript, ← List.append_assoc]
    exact ⟨_, rfl⟩
  obtain ⟨later, parts⟩ := whole
  have asks : AsksFirst (main sampleShellImage 128 (bareSources 0) bareSources sampleKeys 2) sampleConsole.memory
      es := by
    refine ⟨calls, ended, ?_⟩
    rw [out, parts, outputs_append]
    exact List.prefix_append _ _
  have blank : ShowsPage 7 sampleConsole.terminal blankPage := @ShowsPage.clear sampleGreyTerminal rfl
  have shown := session_on_screen sampleShellImage_placed sampleShellImage_loaded (by decide) keys short
    (sampleShellImage_fills 0) sampleShellImage_fills blank rfl session.run session.one keepsUp typed asks
  rw [← made, parts, outputs_append, out, List.take_left] at shown
  exact ⟨es, w₃, session.run, session.reads, shown⟩

end RaryOS.Soundness
