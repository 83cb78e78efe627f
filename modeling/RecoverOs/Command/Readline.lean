import RecoverOs.Lib.Stdio
import RecoverOs.Logic.Bytes

namespace RecoverOs.Command

open Bytes Lib Transition

def backspace : UInt8 := 0x08

/-- `'l' - 'a'`. -/
def clearScreenKey : UInt8 := 0x0b

/-- `'u' - 'a'`. -/
def clearLineKey : UInt8 := 0x14

def IsNewline (c : UInt8) : Prop := c = 0x0a ∨ c = 0x0d

instance (c : UInt8) : Decidable (IsNewline c) := inferInstanceAs (Decidable (_ ∨ _))

/-- `pos` counts from `buf`, `stores` are the indices that have been stored to, and `written` is what has been written to
    descriptor 1. -/
structure Editor where
  buf : Buffer
  pos : Nat
  stores : List Nat
  written : List UInt8

def Editor.store (e : Editor) (i : Nat) (c : UInt8) : Editor :=
  { e with buf := Function.update e.buf i c, stores := e.stores ++ [i] }

def Editor.move (e : Editor) (pos : Nat) : Editor := { e with pos := pos }

def Editor.write (e : Editor) (text : List UInt8) : Editor := { e with written := e.written ++ text }

def Editor.string (e : Editor) : List UInt8 := ((List.range e.pos).map e.buf).takeWhile (· != 0)

def printf (format : String) (args : List Arg) : Except Halt (List UInt8) := do
  let (str, count) ← vsprintf (ascii format) args
  return str.take count

def cwdCache : List UInt8 := ascii "/"

def printPrompt : Except Halt (List UInt8) := printf "\x1b\x09[yu@recover %s]$ \x1b\x07" [.str cwdCache]

def redraw (e : Editor) : Except Halt Editor := do
  let prompt ← printPrompt
  let text ← printf "%s" [.str e.string]
  return e.write (ascii "\x0c" ++ prompt ++ text)

def clearLine : Nat → Editor → Editor
  | 0, e => e
  | pos + 1, e => clearLine pos (((e.write [backspace]).store (pos + 1) 0).move pos)

/-- What is done with a byte that is no end of the line. A `pos` in front of `buf` would be a fault. -/
def editTurn (e : Editor) (c : UInt8) : Except Halt Editor :=
  if c = backspace then
    if e.buf 0 ≠ backspace then
      if e.pos = 0 then .error .fault else .ok ((e.move (e.pos - 1)).write [backspace])
    else .ok e
  else if c = clearScreenKey then redraw (e.store e.pos 0)
  else if c = clearLineKey then .ok (clearLine e.pos e)
  else .ok ((e.write [c]).move (e.pos + 1))

/-- The loop of `readline` over the bytes that are typed, and those it leaves when it returns. Without an end of the line
    it waits for more. -/
def readLoop (count : Nat) : List UInt8 → Editor → Except Halt (Editor × Option (List UInt8))
  | [], e => .ok (e, none)
  | c :: input, e =>
    let e := e.store e.pos c
    if count ≤ e.pos then .ok (e.write (ascii "readline: exeed max command len\n"), some input)
    else if IsNewline c then .ok ((e.store e.pos 0).write (ascii "\n"), some input)
    else do
      let e ← editTurn e c
      readLoop count input e

def Editor.start (buf : Buffer) : Editor := { buf := buf, pos := 0, stores := [], written := [] }

def readline (buf : Buffer) (count : Nat) (input : List UInt8) : Except Halt (Editor × Option (List UInt8)) :=
  readLoop count input (Editor.start buf)

def edit (line : List UInt8) (c : UInt8) : List UInt8 :=
  if c = backspace then line.dropLast
  else if c = clearLineKey then []
  else if c = clearScreenKey then line
  else line ++ [c]

def edited (typed : List UInt8) : List UInt8 := typed.foldl edit []

structure HoldsLine (e : Editor) (line : List UInt8) : Prop where
  place : e.pos = line.length
  bytes : ∀ (i : Nat) (c : UInt8), (line)[i]? = some c → e.buf i = c
  plain : backspace ∉ line

variable {e next : Editor} {line : List UInt8} {c : UInt8} {count : Nat}

theorem printf_string (text : List UInt8) : printf "%s" [.str text] = .ok (text.take (strlen (text ++ [0]))) := by
  have format : ascii "%s" = [percent, 0x73] := by decide
  rw [printf, format]
  rfl

theorem redraw_ok (e : Editor) : ∃ text, redraw e = .ok (e.write text) := by
  have printed : endsIn printPrompt (fun _ => true) = true := by decide +kernel
  obtain ⟨prompt, same, -⟩ := exists_of_endsIn printed
  rw [redraw, same, printf_string]
  exact ⟨_, rfl⟩

theorem mem_store {i p : Nat} (ch : UInt8) : i ∈ (e.store p ch).stores ↔ i ∈ e.stores ∨ i = p := by
  show i ∈ e.stores ++ [p] ↔ _
  rw [List.mem_append, List.mem_singleton]

theorem clearLine_buf (pos : Nat) (e : Editor) : (clearLine pos e).pos = (if pos = 0 then e.pos else 0) ∧
    ∀ i ∈ (clearLine pos e).stores, i ∈ e.stores ∨ i ≤ pos := by
  induction pos generalizing e with
  | zero => exact ⟨rfl, fun i stored => .inl stored⟩
  | succ pos ih =>
    obtain ⟨place, stores⟩ := ih (((e.write [backspace]).store (pos + 1) 0).move pos)
    constructor
    · rw [clearLine, place, if_neg (Nat.succ_ne_zero pos)]
      split
      · rename_i zero
        exact zero
      · rfl
    · intro i stored
      rcases stores i stored with before | low
      · rcases (mem_store 0).mp before with older | here
        · exact .inl older
        · exact .inr (Nat.le_of_eq here)
      · exact .inr (Nat.le_succ_of_le low)

theorem HoldsLine.read (holds : HoldsLine e line) (c : UInt8) : HoldsLine (e.store e.pos c) line := by
  refine ⟨holds.place, ?_, holds.plain⟩
  intro i ch there
  have inside := (List.getElem?_eq_some_iff.mp there).1
  have other : i ≠ e.pos := by
    rw [holds.place]
    omega
  show Function.update e.buf e.pos c i = ch
  rw [Function.update_of_ne other]
  exact holds.bytes i ch there

theorem backspace_turn (holds : HoldsLine e line) (typed : e.buf e.pos = backspace) :
    ∃ next, editTurn e backspace = .ok next ∧ HoldsLine next line.dropLast ∧ next.stores = e.stores := by
  rw [editTurn, if_pos rfl]
  cases line with
  | nil =>
    have at_start : e.pos = 0 := holds.place
    rw [at_start] at typed
    rw [if_neg (fun other => other typed)]
    exact ⟨e, rfl, holds, rfl⟩
  | cons first line =>
    have here : e.buf 0 = first := holds.bytes 0 first rfl
    have other : first ≠ backspace := fun same => holds.plain (same ▸ List.mem_cons_self)
    have place : e.pos = line.length + 1 := holds.place
    rw [here, if_pos other, if_neg (by omega)]
    refine ⟨_, rfl, ⟨?_, ?_, ?_⟩, rfl⟩
    · show e.pos - 1 = _
      rw [place, List.length_dropLast, List.length_cons]
    · intro i ch there
      apply holds.bytes i ch
      rw [List.getElem?_dropLast] at there
      split at there
      · exact there
      · cases there
    · exact fun member => holds.plain (List.mem_of_mem_dropLast member)

theorem clearScreen_turn (holds : HoldsLine e line) :
    ∃ next, editTurn e clearScreenKey = .ok next ∧ HoldsLine next line ∧ next.stores = (e.store e.pos 0).stores := by
  obtain ⟨text, drawn⟩ := redraw_ok (e.store e.pos 0)
  obtain ⟨place, bytes, plain⟩ := holds.read 0
  rw [editTurn, if_neg (by decide), if_pos rfl, drawn]
  exact ⟨_, rfl, ⟨place, bytes, plain⟩, rfl⟩

theorem clearLine_turn (e : Editor) :
    ∃ next, editTurn e clearLineKey = .ok next ∧ HoldsLine next [] ∧ ∀ i ∈ next.stores, i ∈ e.stores ∨ i ≤ e.pos := by
  obtain ⟨place, stores⟩ := clearLine_buf e.pos e
  rw [editTurn, if_neg (by decide), if_neg (by decide), if_pos rfl]
  refine ⟨_, rfl, ⟨?_, fun i ch there => (nomatch there), List.not_mem_nil⟩, stores⟩
  rw [place]
  split
  · rename_i zero
    exact zero
  · rfl

theorem character_turn (holds : HoldsLine e line) (typed : e.buf e.pos = c) (no_backspace : c ≠ backspace)
    (no_clear : c ≠ clearScreenKey) (no_line : c ≠ clearLineKey) :
    ∃ next, editTurn e c = .ok next ∧ HoldsLine next (line ++ [c]) ∧ next.stores = e.stores := by
  rw [editTurn, if_neg no_backspace, if_neg no_clear, if_neg no_line]
  refine ⟨_, rfl, ⟨?_, ?_, ?_⟩, rfl⟩
  · show e.pos + 1 = _
    rw [holds.place, List.length_append, List.length_singleton]
  · intro i ch there
    by_cases inside : i < line.length
    · rw [List.getElem?_append_left inside] at there
      exact holds.bytes i ch there
    · rw [List.getElem?_append_right (Nat.le_of_not_lt inside)] at there
      have last : i = line.length := by
        have bound := (List.getElem?_eq_some_iff.mp there).1
        rw [List.length_singleton] at bound
        omega
      rw [last, Nat.sub_self] at there
      rw [last, ← holds.place]
      exact typed.trans (Option.some.inj there)
  · rw [List.mem_append, List.mem_singleton, not_or]
    exact ⟨holds.plain, fun same => no_backspace same.symm⟩

theorem editTurn_holds (holds : HoldsLine e line) (c : UInt8) : ∃ next, editTurn (e.store e.pos c) c = .ok next ∧
    HoldsLine next (edit line c) ∧ ∀ i ∈ next.stores, i ∈ e.stores ∨ i ≤ e.pos := by
  have read := holds.read c
  have typed : (e.store e.pos c).buf (e.store e.pos c).pos = c := Function.update_self ..
  have stored : ∀ i ∈ (e.store e.pos c).stores, i ∈ e.stores ∨ i ≤ e.pos := fun i member =>
    ((mem_store c).mp member).imp_right Nat.le_of_eq
  unfold edit
  split
  · rename_i is_backspace
    rw [is_backspace] at read typed stored ⊢
    obtain ⟨next, turned, still, same⟩ := backspace_turn read typed
    exact ⟨next, turned, still, same ▸ stored⟩
  · rename_i no_backspace
    split
    · rename_i is_line
      rw [is_line] at stored ⊢
      obtain ⟨next, turned, still, low⟩ := clearLine_turn (e.store e.pos clearLineKey)
      refine ⟨next, turned, still, ?_⟩
      intro i member
      exact (low i member).elim (stored i) .inr
    · rename_i no_line
      split
      · rename_i is_clear
        rw [is_clear] at read stored ⊢
        obtain ⟨next, turned, still, same⟩ := clearScreen_turn read
        refine ⟨next, turned, still, ?_⟩
        intro i member
        rw [same] at member
        exact ((mem_store 0).mp member).elim (stored i) fun here => .inr (Nat.le_of_eq here)
      · rename_i no_clear
        obtain ⟨next, turned, still, same⟩ := character_turn read typed no_backspace no_clear no_line
        exact ⟨next, turned, still, same ▸ stored⟩

theorem start_holds (buf : Buffer) : HoldsLine (Editor.start buf) [] :=
  ⟨rfl, fun _ _ there => (nomatch there), List.not_mem_nil⟩

theorem readLoop_edits (holds : HoldsLine e line) {typed : List UInt8} (going : ∀ b ∈ typed, ¬ IsNewline b)
    (fits : ∀ front back, typed = front ++ back → (front.foldl edit line).length < count) (ended : IsNewline c)
    (rest : List UInt8) : ∃ last, readLoop count (typed ++ c :: rest) e = .ok (last, some rest) ∧
      (∀ (i : Nat) (ch : UInt8), (typed.foldl edit line)[i]? = some ch → last.buf i = ch) ∧
      last.buf (typed.foldl edit line).length = 0 := by
  induction typed generalizing e line with
  | nil =>
    have room : line.length < count := fits [] [] rfl
    refine ⟨((e.store e.pos c).store (e.store e.pos c).pos 0).write (ascii "\n"), ?_, ?_, ?_⟩
    · have inside : ¬ count ≤ (e.store e.pos c).pos := by
        show ¬ count ≤ e.pos
        rw [holds.place]
        omega
      rw [List.nil_append, readLoop]
      rw [if_neg inside, if_pos ended]
    · exact ((holds.read c).read 0).bytes
    · show Function.update (e.store e.pos c).buf e.pos 0 line.length = 0
      rw [holds.place, Function.update_self]
  | cons b typed ih =>
    have room : line.length < count := fits [] (b :: typed) rfl
    obtain ⟨next, turned, still, -⟩ := editTurn_holds holds b
    have inside : ¬ count ≤ (e.store e.pos b).pos := by
      show ¬ count ≤ e.pos
      rw [holds.place]
      omega
    have later : ∀ front back, typed = front ++ back → (front.foldl edit (edit line b)).length < count := by
      intro front back parts
      exact fits (b :: front) back (by rw [parts]; rfl)
    rw [List.cons_append, readLoop]
    rw [if_neg inside, if_neg (going b List.mem_cons_self), turned]
    exact ih still (fun b' member => going b' (List.mem_cons_of_mem b member)) later

theorem mem_edit {b : UInt8} (member : b ∈ edit line c) : b ∈ line ∨ b = c := by
  unfold edit at member
  split at member
  · exact .inl (List.mem_of_mem_dropLast member)
  · split at member
    · cases member
    · split at member
      · exact .inl member
      · rwa [List.mem_append, List.mem_singleton] at member

theorem mem_edited {typed : List UInt8} {b : UInt8} (member : b ∈ typed.foldl edit line) : b ∈ line ∨ b ∈ typed := by
  induction typed generalizing line with
  | nil => exact .inl member
  | cons c typed ih =>
    rcases ih member with in_edit | in_typed
    · rcases mem_edit in_edit with old | new
      · exact .inl old
      · exact .inr (new ▸ List.mem_cons_self)
    · exact .inr (List.mem_cons_of_mem c in_typed)

structure StringAt (buf : Buffer) (str : List UInt8) : Prop where
  bytes : ∀ (i : Nat) (ch : UInt8), str[i]? = some ch → buf i = ch
  nonzero : 0 ∉ str
  ended : buf str.length = 0

/-- `readline` leaves the edited line, and takes no byte behind its end; `pos` never moves in front of `buf`, which would
    be a fault. -/
theorem readline_edits (buf : Buffer) (count : Nat) (typed rest : List UInt8) (c : UInt8) (ended : IsNewline c)
    (going : ∀ b ∈ typed, ¬ IsNewline b) (nonzero : 0 ∉ typed)
    (fits : ∀ front back, typed = front ++ back → (edited front).length < count) :
    ∃ last, readline buf count (typed ++ c :: rest) = .ok (last, some rest) ∧ StringAt last.buf (edited typed) := by
  obtain ⟨last, ran, bytes, zero⟩ := readLoop_edits (start_holds buf) going fits ended rest
  refine ⟨last, ran, bytes, ?_, zero⟩
  intro member
  rcases mem_edited member with none_left | in_typed
  · cases none_left
  · exact nonzero in_typed

theorem StringAt.cmdLine {buf : Buffer} {text : List UInt8} {size : Nat} (held : StringAt buf text)
    (fits : text.length < size) : ∃ rest, (List.range size).map buf = text ++ 0 :: rest := by
  obtain ⟨more, size_eq⟩ := Nat.exists_eq_add_of_le (Nat.succ_le_of_lt fits)
  have front : (List.range text.length).map buf = text := by
    apply List.ext_getElem
    · rw [List.length_map, List.length_range]
    · intro i _ inside
      rw [List.getElem_map, List.getElem_range]
      exact held.bytes i _ (List.getElem?_eq_getElem inside)
  refine ⟨(List.range more).map fun i => buf (text.length + 1 + i), ?_⟩
  rw [size_eq, Nat.succ_eq_add_one, List.range_add, List.map_append, List.range_succ, List.map_append, front,
    List.map_singleton, held.ended, List.map_map, List.append_assoc]
  rfl

theorem readline_edits_ls : ∃ last, readline (fun _ => 0xff) 512 ([0x6c, 0x61, 0x08, 0x73] ++ 0x0d :: []) =
    .ok (last, some []) ∧ StringAt last.buf (edited [0x6c, 0x61, 0x08, 0x73]) := by
  have lengths : ∀ n, n ≤ 4 → (edited ([0x6c, 0x61, 0x08, 0x73].take n)).length < 512 := by decide
  apply readline_edits (fun _ => 0xff) 512 [0x6c, 0x61, 0x08, 0x73] [] 0x0d (by decide) (by simp [IsNewline]) (by decide)
  intro front back parts
  have whole := congrArg List.length parts
  rw [List.length_append] at whole
  have taken : front = [0x6c, 0x61, 0x08, 0x73].take front.length := by
    rw [parts, List.take_left]
  rw [taken]
  exact lengths _ (Nat.le.intro whole.symm)

theorem edit_length (line : List UInt8) (c : UInt8) : (edit line c).length ≤ line.length + 1 := by
  unfold edit
  split
  · rw [List.length_dropLast]
    omega
  · split
    · exact Nat.zero_le _
    · split
      · exact Nat.le_succ _
      · rw [List.length_append]
        exact Nat.le_refl _

def RoomLeft (count : Nat) (line input : List UInt8) : Prop := ∀ front c back, input = front ++ c :: back →
  (∀ b ∈ front, ¬ IsNewline b) → (front.foldl edit line).length < count

theorem roomLeft_cons (count : Nat) (line : List UInt8) (c : UInt8) (input : List UInt8) :
    RoomLeft count line (c :: input) ↔ line.length < count ∧ (¬ IsNewline c → RoomLeft count (edit line c) input) := by
  constructor
  · intro room
    refine ⟨room [] c input rfl fun b member => (nomatch member), ?_⟩
    intro going front d back parts rest_going
    apply room (c :: front) d back (by rw [parts]; rfl)
    rw [List.forall_mem_cons]
    exact ⟨going, rest_going⟩
  · intro both front d back parts going
    cases front with
    | nil => exact both.1
    | cons b front =>
      rw [List.cons_append, List.cons.injEq] at parts
      rw [List.forall_mem_cons, ← parts.1] at going
      rw [← parts.1]
      exact both.2 going.1 front d back parts.2 going.2

/-- All stores lie in the buffer, and a call that returns leaves a string there. -/
def Stays (count : Nat) (result : Except Halt (Editor × Option (List UInt8))) : Prop := ∃ last left,
  result = .ok (last, left) ∧ (∀ i ∈ last.stores, i < count) ∧ (left ≠ none → ∃ i < count, last.buf i = 0)

theorem readLoop_stays_iff (holds : HoldsLine e line) (low : line.length ≤ count) (inside : ∀ i ∈ e.stores, i < count)
    (input : List UInt8) : Stays count (readLoop count input e) ↔ RoomLeft count line input := by
  induction input generalizing e line with
  | nil =>
    constructor
    · intro _ front c back parts
      cases front <;> cases parts
    · intro _
      exact ⟨e, none, rfl, inside, fun returned => absurd rfl returned⟩
  | cons c input ih =>
    rw [roomLeft_cons, readLoop]
    have here : e.pos ∈ (e.store e.pos c).stores := (mem_store c).mpr (.inr rfl)
    by_cases full : count ≤ e.pos
    · have overrun : count ≤ (e.store e.pos c).pos := full
      rw [if_pos overrun]
      constructor
      · intro stays
        obtain ⟨last, left, same, stores, -⟩ := stays
        cases same
        exact absurd (stores e.pos here) (by omega)
      · intro room
        rw [holds.place] at full
        omega
    · have room : ¬ count ≤ (e.store e.pos c).pos := full
      have below : line.length < count := by
        rw [← holds.place]
        omega
      have stored : ∀ i ∈ (e.store e.pos c).stores, i < count := by
        intro i member
        rcases (mem_store c).mp member with before | at_pos
        · exact inside i before
        · omega
      rw [if_neg room]
      by_cases newline : IsNewline c
      · rw [if_pos newline]
        constructor
        · intro _
          exact ⟨below, fun going => absurd newline going⟩
        · intro _
          refine ⟨_, _, rfl, ?_, fun _ => ⟨e.pos, by omega, ?_⟩⟩
          · intro i member
            rcases (mem_store 0).mp member with before | at_pos
            · exact stored i before
            · rw [at_pos]
              show e.pos < count
              omega
          · show Function.update (e.store e.pos c).buf e.pos 0 e.pos = 0
            rw [Function.update_self]
      · obtain ⟨next, turned, still, stores⟩ := editTurn_holds holds c
        have next_inside : ∀ i ∈ next.stores, i < count := by
          intro i member
          rcases stores i member with before | at_most
          · exact inside i before
          · omega
        have next_low : (edit line c).length ≤ count := Nat.le_trans (edit_length line c) below
        rw [if_neg newline, turned]
        exact (ih still next_low next_inside).trans
          ⟨fun later => ⟨below, fun _ => later⟩, fun both => both.2 newline⟩

/-- `readline` stays in its buffer exactly if no byte is read when the line has `count` characters. -/
theorem readline_stays_iff (buf : Buffer) (count : Nat) (input : List UInt8) :
    Stays count (readline buf count input) ↔ ∀ front c back, input = front ++ c :: back →
      (∀ b ∈ front, ¬ IsNewline b) → (edited front).length < count :=
  readLoop_stays_iff (start_holds buf) (Nat.zero_le _) (fun _ stored => (nomatch stored)) input

theorem readLoop_overruns (holds : HoldsLine e line) (going : ¬ IsNewline c) (ordinary : ∀ line, edit line c = line ++ [c])
    {more : Nat} (full : line.length + more = count) (last : UInt8) (rest : List UInt8) :
    ∃ final, readLoop count (List.replicate more c ++ last :: rest) e = .ok (final, some rest) ∧ count ∈ final.stores := by
  induction more generalizing e line with
  | zero =>
    have overrun : count ≤ (e.store e.pos last).pos := by
      show count ≤ e.pos
      rw [holds.place]
      omega
    rw [List.replicate_zero, List.nil_append, readLoop]
    rw [if_pos overrun]
    refine ⟨_, rfl, (mem_store last).mpr (.inr ?_)⟩
    rw [holds.place]
    omega
  | succ more ih =>
    obtain ⟨next, turned, still, -⟩ := editTurn_holds holds c
    have room : ¬ count ≤ (e.store e.pos c).pos := by
      show ¬ count ≤ e.pos
      rw [holds.place]
      omega
    rw [List.replicate_succ, List.cons_append, readLoop]
    rw [if_neg room, if_neg going, turned]
    apply ih still
    rw [ordinary, List.length_append, List.length_singleton]
    omega

def fullLine : List UInt8 := List.replicate 512 0x61 ++ [0x0d]

theorem readline_overruns : ∃ last, readline (fun _ => 0xff) 512 fullLine = .ok (last, some []) ∧
    512 ∈ last.stores ∧ ¬ Stays 512 (readline (fun _ => 0xff) 512 fullLine) := by
  have ordinary : ∀ line, edit line 0x61 = line ++ [0x61] := by
    intro line
    rw [edit, if_neg (by decide), if_neg (by decide), if_neg (by decide)]
  obtain ⟨last, same, stored⟩ := readLoop_overruns (start_holds fun _ => 0xff) (show ¬ IsNewline 0x61 by decide) ordinary
    (Nat.zero_add 512) 0x0d []
  have ran : readline (fun _ => 0xff) 512 fullLine = .ok (last, some []) := same
  refine ⟨last, ran, stored, ?_⟩
  rw [ran]
  intro stays
  obtain ⟨again, rest, both, inside, -⟩ := stays
  cases both
  exact absurd (inside 512 stored) (by decide)

end RecoverOs.Command
