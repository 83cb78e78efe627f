import Mathlib.Data.List.TakeWhile
import RecoverOs.Basic

namespace RecoverOs.Command

def space : UInt8 := 0x20
def pipeSign : UInt8 := 0x7c
def maxArgNr : Nat := 16

def strchr : List UInt8 → UInt8 → Option Nat
  | [], _ => none
  | c :: str, ch => if c = 0 then none else if c = ch then some 0 else (strchr str ch).map (· + 1)

def byteAt (line : List UInt8) (pos : Nat) : UInt8 := line.getD pos 0

def cstring (line : List UInt8) (ptr : Nat) : List UInt8 := (line.drop ptr).takeWhile (· != 0)

/-- The outer loop of `cmd_parse` from `next` on. `argv` holds the pointers that are stored so far; the other entries of
    the array are `NULL`. -/
def parseLoop (token : UInt8) : Nat → List UInt8 → Nat → List Nat → Except Halt (Int × List Nat × List UInt8)
  | 0, _, _, _ => .error .stuck
  | fuel + 1, line, next, argv =>
    if byteAt line next = 0 then .ok (argv.length, argv, line)
    else
      let next := next + ((line.drop next).takeWhile (· == token)).length
      if byteAt line next = 0 then .ok (argv.length, argv, line)
      else if maxArgNr ≤ argv.length then .error .fault
      else
        let stop := next + ((line.drop next).takeWhile fun c => c != 0 && c != token).length
        let rest := if byteAt line stop = 0 then (line, stop) else (line.set stop 0, stop + 1)
        if maxArgNr < argv.length then .ok (-1, argv ++ [next], rest.1)
        else parseLoop token fuel rest.1 rest.2 (argv ++ [next])

def cmdParse (line : List UInt8) (cmdStr : Nat) (token : UInt8) : Except Halt (Int × List Nat × List UInt8) :=
  parseLoop token (line.length + 1) line cmdStr []

/-- A descriptor that the shell names: a constant or an entry of `fd`. -/
inductive Fd where
  | const (fd : Nat)
  | readEnd
  | writeEnd
  deriving DecidableEq, Repr

/-- What the shell calls, in its order. `execute` is `cmd_execute` with the strings that `argv` points to. -/
inductive Act where
  | pipe
  | dup2 (oldfd newfd : Fd)
  | execute (argc : Int) (argv : List (List UInt8))
  | close (fd : Fd)
  deriving DecidableEq, Repr

structure Shell where
  line : List UInt8
  acts : List Act
  deriving DecidableEq, Repr

abbrev ShellM := ExceptT Halt (StateM Shell)

def call (act : Act) : ShellM Unit := modify fun s => { s with acts := s.acts ++ [act] }

def cut (pos : Nat) : ShellM Unit := modify fun s => { s with line := s.line.set pos 0 }

def parse (cmdStr : Nat) : ShellM (Int × List Nat) := do
  let s ← get
  match cmdParse s.line cmdStr space with
  | .error halt => throw halt
  | .ok (argc, argv, line) => do
    set { s with line := line }
    return (argc, argv)

/-- `cmd_execute` compares the string at `argv[0]` first, and 0 is no address of the shell. -/
def cmdExecute (argc : Int) (argv : List Nat) : ShellM Unit := do
  let s ← get
  call (.execute argc (argv.map (cstring s.line)))
  if argv = [] then throw .fault

/-- The `while` loop of the pipeline branch; the result is `each_cmd`. -/
def pipelineLoop : Nat → Nat → ShellM Nat
  | 0, _ => throw .stuck
  | fuel + 1, eachCmd => do
    match strchr (← get).line pipeSign with
    | none => return eachCmd
    | some pipeSymbol => do
      cut pipeSymbol
      let (argc, argv) ← parse eachCmd
      call (.dup2 (.const 1) .writeEnd)
      cmdExecute argc argv
      pipelineLoop fuel (pipeSymbol + 1)

def closePipe : ShellM Unit := do
  call (.dup2 (.const 0) (.const 0))
  call (.close .readEnd)
  call (.close .writeEnd)

def lastStage (eachCmd : Nat) : ShellM Unit := do
  call (.dup2 (.const 1) (.const 1))
  let (argc, argv) ← parse eachCmd
  cmdExecute argc argv
  closePipe

def laterStages (pipeSymbol : Nat) : ShellM Unit := do
  call (.dup2 (.const 0) .readEnd)
  let eachCmd ← pipelineLoop ((← get).line.length + 1) (pipeSymbol + 1)
  lastStage eachCmd

def pipelineBranch (pipeSymbol : Nat) : ShellM Unit := do
  call .pipe
  call (.dup2 (.const 1) .writeEnd)
  cut pipeSymbol
  let (argc, argv) ← parse 0
  cmdExecute argc argv
  laterStages pipeSymbol

def mainTurn : ShellM Unit := do
  let s ← get
  if byteAt s.line 0 = 0 then return
  match strchr s.line pipeSign with
  | some pipeSymbol => pipelineBranch pipeSymbol
  | none => do
    let (argc, argv) ← parse 0
    if argc = -1 then return
    cmdExecute argc argv

def Shell.turn (line : List UInt8) : Except Halt Unit × List Act :=
  let (result, s) := (mainTurn.run).run { line := line, acts := [] }
  (result, s.acts)

def words (token : UInt8) (str : List UInt8) : List (List UInt8) := (str.splitOn token).filter fun word => word != []

theorem takeWhile_string {p : UInt8 → Bool} (stops : p 0 = false) (str rest : List UInt8) :
    (str ++ 0 :: rest).takeWhile p = str.takeWhile p := by
  induction str with
  | nil => simp [stops]
  | cons c str ih =>
    rw [List.cons_append, List.takeWhile_cons, List.takeWhile_cons, ih]

theorem takeWhile_stopped {p : UInt8 → Bool} {c : UInt8} {str : List UInt8} (member : c ∈ str) (stops : p c = false)
    (rest : List UInt8) : (str ++ rest).takeWhile p = str.takeWhile p := by
  rw [List.takeWhile_append, if_neg]
  intro whole
  have all := List.takeWhile_eq_self_iff.mp ((List.takeWhile_prefix p).eq_of_length whole)
  rw [all c member] at stops
  cases stops

theorem byteAt_head (before str rest : List UInt8) :
    byteAt (before ++ (str ++ 0 :: rest)) before.length = str.headD 0 := by
  cases str <;> simp [byteAt]

theorem words_gap {token : UInt8} {gap : List UInt8} (tokens : ∀ c ∈ gap, c = token) (str : List UInt8) :
    words token (gap ++ str) = words token str := by
  induction gap with
  | nil => rfl
  | cons c gap ih =>
    have here := tokens c List.mem_cons_self
    rw [← ih fun d member => tokens d (List.mem_cons_of_mem c member), here, List.cons_append, words, words,
      List.splitOn_cons_eq_if_modifyHead]
    simp

theorem words_single {token : UInt8} {word : List UInt8} (some_left : word ≠ []) (none_inside : token ∉ word) :
    words token word = [word] := by
  rw [words, List.splitOn_eq_singleton none_inside]
  simp [some_left]

theorem words_cons {token : UInt8} {word : List UInt8} (some_left : word ≠ []) (none_inside : token ∉ word)
    (str : List UInt8) : words token (word ++ token :: str) = word :: words token str := by
  rw [words, List.splitOn_append_cons_self_of_not_mem none_inside]
  simp [some_left, words]

theorem dropWhile_stops (p : UInt8 → Bool) (str : List UInt8) :
    str.dropWhile p = [] ∨ ∃ c rest, str.dropWhile p = c :: rest ∧ p c = false ∧ c ∈ str := by
  induction str with
  | nil => exact .inl rfl
  | cons c str ih =>
    rw [List.dropWhile_cons]
    split
    · rcases ih with none_left | ⟨d, rest, same, stops, member⟩
      · exact .inl none_left
      · exact .inr ⟨d, rest, same, stops, List.mem_cons_of_mem c member⟩
    · rename_i stops
      exact .inr ⟨c, str, rfl, Bool.eq_false_iff.mpr stops, List.mem_cons_self⟩

structure Turn (token : UInt8) (str gap word tail : List UInt8) : Prop where
  parts : str = gap ++ (word ++ tail)
  skips : str.takeWhile (· == token) = gap
  tokens : ∀ c ∈ gap, c = token
  scans : (word ++ tail).takeWhile (fun c => c != 0 && c != token) = word
  inside : token ∉ word
  empty : word = [] → tail = []
  ends : tail = [] ∨ ∃ rest, tail = token :: rest

theorem turn_exists (token : UInt8) {str : List UInt8} (nonzero : 0 ∉ str) :
    ∃ gap word tail, Turn token str gap word tail := by
  let inWord : UInt8 → Bool := fun c => c != 0 && c != token
  let body := str.dropWhile (· == token)
  have parts : str = str.takeWhile (· == token) ++ (body.takeWhile inWord ++ body.dropWhile inWord) := by
    rw [List.takeWhile_append_dropWhile, List.takeWhile_append_dropWhile]
  have inside : ∀ c ∈ body, c ≠ 0 := by
    intro c member zero
    rw [zero] at member
    exact nonzero ((List.dropWhile_suffix _).mem member)
  refine ⟨str.takeWhile (· == token), body.takeWhile inWord, body.dropWhile inWord, parts, rfl, ?_, ?_, ?_, ?_, ?_⟩
  · intro c member
    exact eq_of_beq (List.mem_takeWhile_imp (p := (· == token)) member)
  · rw [List.takeWhile_append_dropWhile]
  · intro member
    have passes : inWord token = true := List.mem_takeWhile_imp member
    simp [inWord] at passes
  · intro none_taken
    rcases dropWhile_stops (· == token) str with none_left | ⟨c, rest, same, stops, member⟩
    · show (str.dropWhile (· == token)).dropWhile inWord = []
      rw [none_left]
      rfl
    · have there : body = c :: rest := same
      have passes : inWord c = true := by
        have other : c ≠ 0 := inside c (by rw [there]; exact List.mem_cons_self)
        simp only [beq_eq_false_iff_ne] at stops
        simp [inWord, other, stops]
      rw [there, List.takeWhile_cons, if_pos passes] at none_taken
      cases none_taken
  · rcases dropWhile_stops inWord body with none_left | ⟨c, rest, same, stops, member⟩
    · exact .inl none_left
    · refine .inr ⟨rest, ?_⟩
      have other := inside c member
      have here : c = token := by
        by_contra differ
        simp [inWord, other, differ] at stops
      rw [same, here]

structure Parsed (token : UInt8) (before str rest : List UInt8) (ptrs : List Nat) (parsed : List UInt8) : Prop where
  length : parsed.length = str.length
  bytes : ∀ c ∈ parsed, c ∈ str ∨ c = 0
  strings : ptrs.map (cstring (before ++ (parsed ++ 0 :: rest))) = words token str

theorem parseLoop_end {token : UInt8} {str gap tail : List UInt8} (sep : token ≠ 0) (turn : Turn token str gap [] tail)
    (fuel : Nat) (before rest : List UInt8) (argv : List Nat) :
    parseLoop token (fuel + 1) (before ++ (str ++ 0 :: rest)) before.length argv =
      .ok (argv.length, argv, before ++ (str ++ 0 :: rest)) ∧ words token str = [] := by
  have only : str = gap := by
    rw [turn.parts, turn.empty rfl, List.append_nil, List.append_nil]
  have stops : ((0 : UInt8) == token) = false := beq_eq_false_iff_ne.mpr sep.symm
  have skipped : ((before ++ (str ++ 0 :: rest)).drop before.length).takeWhile (· == token) = str := by
    rw [List.drop_left, takeWhile_string stops, turn.skips, only]
  have at_end : byteAt (before ++ (str ++ 0 :: rest)) (before.length + str.length) = 0 := by
    have moved := byteAt_head (before ++ str) [] rest
    rw [List.length_append, List.append_assoc] at moved
    exact moved
  constructor
  · rw [parseLoop]
    dsimp only
    rw [skipped, at_end, if_pos rfl, ite_self]
  · rw [only, ← List.append_nil gap, words_gap turn.tokens]
    rfl

structure Positions (token : UInt8) (before str gap word tail rest : List UInt8) : Prop where
  skipped : ((before ++ (str ++ 0 :: rest)).drop before.length).takeWhile (· == token) = gap
  atStart : byteAt (before ++ (str ++ 0 :: rest)) before.length ≠ 0
  atWord : byteAt (before ++ (str ++ 0 :: rest)) (before.length + gap.length) ≠ 0
  scanned : ((before ++ (str ++ 0 :: rest)).drop (before.length + gap.length)).takeWhile
    (fun c => c != 0 && c != token) = word
  atStop : byteAt (before ++ (str ++ 0 :: rest)) (before.length + gap.length + word.length) = tail.headD 0

theorem head_nonzero {str : List UInt8} (nonzero : 0 ∉ str) (some_left : str ≠ []) : str.headD 0 ≠ 0 := by
  cases str with
  | nil => exact absurd rfl some_left
  | cons c str =>
    intro zero
    apply nonzero
    rw [← zero]
    exact List.mem_cons_self

theorem Turn.positions {token : UInt8} {str gap word tail : List UInt8} (turn : Turn token str gap word tail)
    (nonzero : 0 ∉ str) (some_left : word ≠ []) (before rest : List UInt8) :
    Positions token before str gap word tail rest := by
  obtain ⟨c, in_word⟩ := List.exists_mem_of_ne_nil word some_left
  have in_str : c ∈ str := by
    rw [turn.parts]
    exact List.mem_append_right gap (List.mem_append_left tail in_word)
  have stops : (c == token) = false := by
    rw [beq_eq_false_iff_ne]
    intro same
    rw [same] at in_word
    exact turn.inside in_word
  have behind_gap : before ++ (str ++ 0 :: rest) = (before ++ gap) ++ ((word ++ tail) ++ 0 :: rest) := by
    rw [turn.parts]
    simp only [List.append_assoc]
  have behind_word : before ++ (str ++ 0 :: rest) = (before ++ gap ++ word) ++ (tail ++ 0 :: rest) := by
    rw [behind_gap]
    simp only [List.append_assoc]
  have word_nonzero : 0 ∉ word ++ tail := by
    intro member
    apply nonzero
    rw [turn.parts]
    exact List.mem_append_right gap member
  constructor
  · rw [List.drop_left, takeWhile_stopped in_str stops, turn.skips]
  · rw [byteAt_head]
    apply head_nonzero nonzero
    rw [turn.parts]
    simp [some_left]
  · rw [behind_gap, ← List.length_append, byteAt_head]
    apply head_nonzero word_nonzero
    simp [some_left]
  · rw [behind_gap, ← List.length_append, List.drop_left, takeWhile_string rfl, turn.scans]
  · rw [behind_word, ← List.length_append, ← List.length_append, byteAt_head]

def markOf (tail : List UInt8) : List UInt8 := if tail = [] then [] else [0]

theorem Turn.cut {token : UInt8} {before str gap word tail rest : List UInt8} (turn : Turn token str gap word tail)
    (nonzero : 0 ∉ str) (here : Positions token before str gap word tail rest) :
    (if byteAt (before ++ (str ++ 0 :: rest)) (before.length + gap.length + word.length) = 0 then
      (before ++ (str ++ 0 :: rest), before.length + gap.length + word.length)
    else ((before ++ (str ++ 0 :: rest)).set (before.length + gap.length + word.length) 0,
      before.length + gap.length + word.length + 1)) =
      (before ++ gap ++ word ++ markOf tail ++ (tail.tail ++ 0 :: rest),
        (before ++ gap ++ word ++ markOf tail).length) := by
  have whole : before ++ (str ++ 0 :: rest) = (before ++ gap ++ word) ++ (tail ++ 0 :: rest) := by
    rw [turn.parts]
    simp only [List.append_assoc]
  rw [here.atStop]
  rcases turn.ends with none_left | ⟨more, token_left⟩
  · rw [none_left]
    simp [turn.parts, none_left, Nat.add_assoc, markOf]
  · have marked : (before ++ (str ++ 0 :: rest)).set (before.length + gap.length + word.length) 0 =
        before ++ gap ++ word ++ [0] ++ (more ++ 0 :: rest) := by
      rw [whole, ← List.length_append, ← List.length_append, List.set_append_right _ _ (Nat.le_refl _), token_left]
      simp
    have headed : tail.headD 0 = token := by
      rw [token_left]
      rfl
    have other : token ≠ 0 := by
      intro zero
      apply nonzero
      rw [turn.parts, token_left, zero]
      simp
    rw [headed, if_neg other, marked, token_left]
    simp [Nat.add_assoc, markOf]

theorem parseLoop_word {token : UInt8} {before str gap word tail rest : List UInt8} (turn : Turn token str gap word tail)
    (nonzero : 0 ∉ str) (here : Positions token before str gap word tail rest) (fuel : Nat) {argv : List Nat}
    (room : argv.length < maxArgNr) :
    parseLoop token (fuel + 1) (before ++ (str ++ 0 :: rest)) before.length argv =
      parseLoop token fuel (before ++ gap ++ word ++ markOf tail ++ (tail.tail ++ 0 :: rest))
        (before ++ gap ++ word ++ markOf tail).length (argv ++ [before.length + gap.length]) := by
  rw [parseLoop, if_neg here.atStart]
  dsimp only
  rw [here.skipped, if_neg here.atWord, if_neg (by omega), here.scanned, turn.cut nonzero here, if_neg (by omega)]

theorem parseLoop_full {token : UInt8} {before str gap word tail rest : List UInt8}
    (here : Positions token before str gap word tail rest) (fuel : Nat) {argv : List Nat}
    (full : maxArgNr ≤ argv.length) :
    parseLoop token (fuel + 1) (before ++ (str ++ 0 :: rest)) before.length argv = .error .fault := by
  rw [parseLoop, if_neg here.atStart]
  dsimp only
  rw [here.skipped, if_neg here.atWord, if_pos full]

theorem cstring_word {word : List UInt8} (nonzero : 0 ∉ word) (before rest : List UInt8) :
    cstring (before ++ (word ++ 0 :: rest)) before.length = word := by
  rw [cstring, List.drop_left, takeWhile_string rfl, List.takeWhile_eq_self_iff]
  intro c member
  simp only [bne_iff_ne, ne_eq]
  intro zero
  rw [zero] at member
  exact nonzero member

theorem Turn.alone {token : UInt8} {str gap tail : List UInt8} (turn : Turn token str gap [] tail) : str = gap := by
  rw [turn.parts, turn.empty rfl, List.append_nil, List.append_nil]

theorem Turn.word_nonzero {token : UInt8} {str gap word tail : List UInt8} (turn : Turn token str gap word tail)
    (nonzero : 0 ∉ str) : 0 ∉ word := by
  intro member
  apply nonzero
  rw [turn.parts]
  exact List.mem_append_right gap (List.mem_append_left tail member)

theorem Turn.tail_nonzero {token : UInt8} {str gap word tail : List UInt8} (turn : Turn token str gap word tail)
    (nonzero : 0 ∉ str) : 0 ∉ tail.tail := by
  intro member
  apply nonzero
  rw [turn.parts]
  exact List.mem_append_right gap (List.mem_append_right word (List.mem_of_mem_tail member))

theorem Turn.shorter {token : UInt8} {str gap word tail : List UInt8} (turn : Turn token str gap word tail)
    (some_left : word ≠ []) : tail.tail.length < str.length := by
  have lengths := congrArg List.length turn.parts
  have positive := List.length_pos_iff.mpr some_left
  simp only [List.length_append, List.length_tail] at lengths ⊢
  omega

theorem Turn.ended {token : UInt8} {str gap word tail parsed : List UInt8} (turn : Turn token str gap word tail)
    (same_length : parsed.length = tail.tail.length) (rest : List UInt8) :
    ∃ more, markOf tail ++ (parsed ++ 0 :: rest) = 0 :: more := by
  rcases turn.ends with none_left | ⟨more, token_left⟩
  · have none_parsed : parsed = [] := by
      rw [← List.length_eq_zero_iff, same_length, none_left]
      rfl
    rw [none_left, none_parsed]
    exact ⟨rest, rfl⟩
  · rw [token_left]
    exact ⟨parsed ++ 0 :: rest, rfl⟩

theorem Turn.words {token : UInt8} {str gap word tail : List UInt8} (turn : Turn token str gap word tail)
    (some_left : word ≠ []) : Command.words token str = word :: Command.words token tail.tail := by
  rw [turn.parts, words_gap turn.tokens]
  rcases turn.ends with none_left | ⟨more, token_left⟩
  · rw [none_left, List.append_nil, words_single some_left turn.inside]
    rfl
  · rw [token_left, words_cons some_left turn.inside]
    rfl

theorem Parsed.cons {token : UInt8} {before str gap word tail rest parsed : List UInt8} {ptrs : List Nat}
    (turn : Turn token str gap word tail) (nonzero : 0 ∉ str) (some_left : word ≠ [])
    (later : Parsed token (before ++ gap ++ word ++ markOf tail) tail.tail rest ptrs parsed) :
    Parsed token before str rest ((before.length + gap.length) :: ptrs) (gap ++ word ++ markOf tail ++ parsed) := by
  have lengths : (markOf tail).length + tail.tail.length = tail.length := by
    rcases turn.ends with none_left | ⟨more, token_left⟩
    · rw [none_left]
      rfl
    · rw [token_left]
      simp [markOf, Nat.add_comm]
  constructor
  · rw [turn.parts]
    simp only [List.length_append, later.length]
    omega
  · intro c member
    rw [turn.parts]
    simp only [List.mem_append] at member ⊢
    rcases member with ((in_gap | in_word) | marked) | parsed_byte
    · exact .inl (.inl in_gap)
    · exact .inl (.inr (.inl in_word))
    · unfold markOf at marked
      split at marked
      · cases marked
      · exact .inr (List.mem_singleton.mp marked)
    · rcases later.bytes c parsed_byte with kept | zero
      · exact .inl (.inr (.inr (List.mem_of_mem_tail kept)))
      · exact .inr zero
  · obtain ⟨more, marked⟩ := turn.ended later.length rest
    have line : before ++ (gap ++ word ++ markOf tail ++ parsed ++ 0 :: rest) =
        (before ++ gap) ++ (word ++ (markOf tail ++ (parsed ++ 0 :: rest))) := by
      simp only [List.append_assoc]
    have same : before ++ gap ++ word ++ markOf tail ++ (parsed ++ 0 :: rest) =
        (before ++ gap) ++ (word ++ (markOf tail ++ (parsed ++ 0 :: rest))) := by
      simp only [List.append_assoc]
    have strings := later.strings
    rw [same] at strings
    rw [List.map_cons, line, strings, turn.words some_left, marked, ← List.length_append, cstring_word (turn.word_nonzero nonzero)]

/-- `cmd_parse` over a string, for every state of its outer loop. -/
theorem parseLoop_spec {token : UInt8} {str : List UInt8} (sep : token ≠ 0) (nonzero : 0 ∉ str) (fuel : Nat)
    (enough : str.length < fuel) (before rest : List UInt8) (argv : List Nat) :
    (argv.length + (words token str).length ≤ maxArgNr → ∃ ptrs parsed,
      parseLoop token fuel (before ++ (str ++ 0 :: rest)) before.length argv =
        .ok ((argv ++ ptrs).length, argv ++ ptrs, before ++ (parsed ++ 0 :: rest)) ∧
      Parsed token before str rest ptrs parsed) ∧
    (maxArgNr < argv.length + (words token str).length → argv.length ≤ maxArgNr →
      parseLoop token fuel (before ++ (str ++ 0 :: rest)) before.length argv = .error .fault) := by
  induction fuel generalizing str before argv with
  | zero => omega
  | succ fuel ih =>
    obtain ⟨gap, word, tail, turn⟩ := turn_exists token nonzero
    by_cases none_left : word = []
    · subst none_left
      obtain ⟨ended, none_words⟩ := parseLoop_end sep turn fuel before rest argv
      rw [ended, none_words]
      constructor
      · intro _
        refine ⟨[], str, ?_, rfl, fun c member => .inl member, ?_⟩
        · rw [List.append_nil]
        · rw [none_words]
          rfl
      · intro more less
        simp only [List.length_nil] at more
        omega
    · have here := turn.positions nonzero none_left before rest
      rw [turn.words none_left, List.length_cons]
      by_cases full : maxArgNr ≤ argv.length
      · constructor
        · intro room
          omega
        · intro _ _
          exact parseLoop_full here fuel full
      · have shorter := turn.shorter none_left
        obtain ⟨fits, overflows⟩ := ih (turn.tail_nonzero nonzero) (by omega) (before ++ gap ++ word ++ markOf tail)
          (argv ++ [before.length + gap.length])
        rw [List.length_append, List.length_singleton] at fits overflows
        have turned := parseLoop_word turn nonzero here fuel (show argv.length < maxArgNr by omega)
        constructor
        · intro room
          obtain ⟨ptrs, parsed, ran, later⟩ := fits (by omega)
          refine ⟨(before.length + gap.length) :: ptrs, gap ++ word ++ markOf tail ++ parsed, ?_,
            later.cons turn nonzero none_left⟩
          rw [turned]
          refine Eq.trans ran ?_
          simp only [List.append_assoc, List.cons_append, List.nil_append]
        · intro more _
          rw [turned]
          exact overflows (by omega) (by omega)

theorem cmdParse_spec {token : UInt8} {str : List UInt8} (sep : token ≠ 0) (nonzero : 0 ∉ str)
    (before rest : List UInt8) : ((words token str).length ≤ maxArgNr → ∃ ptrs parsed,
      cmdParse (before ++ (str ++ 0 :: rest)) before.length token =
        .ok (ptrs.length, ptrs, before ++ (parsed ++ 0 :: rest)) ∧ Parsed token before str rest ptrs parsed) ∧
    (maxArgNr < (words token str).length →
      cmdParse (before ++ (str ++ 0 :: rest)) before.length token = .error .fault) := by
  have enough : str.length < (before ++ (str ++ 0 :: rest)).length + 1 := by
    simp only [List.length_append]
    omega
  obtain ⟨fits, overflows⟩ := parseLoop_spec sep nonzero _ enough before rest []
  rw [List.length_nil, Nat.zero_add] at fits overflows
  exact ⟨fits, fun more => overflows more (Nat.zero_le _)⟩

theorem strchr_found {ch : UInt8} (str : List UInt8) (real : ch ≠ 0) {before : List UInt8} (nonzero : 0 ∉ before)
    (first : ch ∉ before) : strchr (before ++ ch :: str) ch = some before.length := by
  induction before with
  | nil => rw [List.nil_append, strchr, if_neg real, if_pos rfl, List.length_nil]
  | cons c before ih =>
    rw [List.mem_cons, not_or] at nonzero first
    rw [List.cons_append, strchr, if_neg (Ne.symm nonzero.1), if_neg (Ne.symm first.1), ih nonzero.2 first.2]
    rfl

theorem strchr_none {ch : UInt8} {before : List UInt8} (absent : ch ∉ before) (str : List UInt8) :
    strchr (before ++ 0 :: str) ch = none := by
  induction before with
  | nil => rfl
  | cons c before ih =>
    rw [List.mem_cons, not_or] at absent
    rw [List.cons_append, strchr, if_neg (Ne.symm absent.1), ih absent.2, Option.map_none, ite_self]

variable {α β : Type}

def exec (m : ShellM α) (s : Shell) : Except Halt α × Shell := m.run.run s

theorem exec_bind (m : ShellM α) (f : α → ShellM β) (s : Shell) : exec (m >>= f) s =
    match exec m s with
    | (.ok a, after) => exec (f a) after
    | (.error halt, after) => (.error halt, after) := by
  show (ExceptT.bindCont f (m s).1) (m s).2 = _
  unfold exec
  cases ran : m s with
  | mk result after =>
    have same : m.run.run s = (result, after) := ran
    rw [same]
    cases result <;> rfl

theorem exec_call (act : Act) (s : Shell) : exec (call act) s = (.ok (), { s with acts := s.acts ++ [act] }) := rfl

theorem exec_cut (pos : Nat) (s : Shell) : exec (cut pos) s = (.ok (), { s with line := s.line.set pos 0 }) := rfl

theorem exec_get (s : Shell) : exec get s = (.ok s, s) := rfl

theorem exec_parse (cmdStr : Nat) (s : Shell) : exec (parse cmdStr) s =
    match cmdParse s.line cmdStr space with
    | .error halt => (.error halt, s)
    | .ok (argc, argv, line) => (.ok (argc, argv), { s with line := line }) := by
  rw [parse, exec_bind, exec_get]
  dsimp only
  cases cmdParse s.line cmdStr space with
  | error halt => rfl
  | ok parsed => rfl

theorem exec_cmdExecute (argc : Int) (argv : List Nat) (s : Shell) : exec (cmdExecute argc argv) s =
    (if argv = [] then .error .fault else .ok (),
      { s with acts := s.acts ++ [.execute argc (argv.map (cstring s.line))] }) := by
  rw [cmdExecute, exec_bind, exec_get]
  dsimp only
  rw [exec_bind, exec_call]
  dsimp only
  by_cases none_left : argv = []
  · rw [if_pos none_left, if_pos none_left]
    rfl
  · rw [if_neg none_left, if_neg none_left]
    rfl

def executeWords (str : List UInt8) : Act := .execute (words space str).length (words space str)

theorem exec_stage {before str rest : List UInt8} {s : Shell} (nonzero : 0 ∉ str)
    (line : s.line = before ++ (str ++ 0 :: rest)) (next : ShellM α) :
    (maxArgNr < (words space str).length → exec (do
      let (argc, argv) ← parse before.length
      cmdExecute argc argv
      next) s = (.error .fault, s)) ∧
    ((words space str).length ≤ maxArgNr → ∃ parsed, parsed.length = str.length ∧ (∀ c ∈ parsed, c ∈ str ∨ c = 0) ∧
      exec (do
        let (argc, argv) ← parse before.length
        cmdExecute argc argv
        next) s =
        if words space str = [] then
          (.error .fault, ⟨before ++ (parsed ++ 0 :: rest), s.acts ++ [executeWords str]⟩)
        else exec next ⟨before ++ (parsed ++ 0 :: rest), s.acts ++ [executeWords str]⟩) := by
  obtain ⟨fits, overflows⟩ := @cmdParse_spec space str (by decide) nonzero before rest
  constructor
  · intro more
    rw [exec_bind, exec_parse, line, overflows more]
  · intro room
    obtain ⟨ptrs, parsed, ran, done⟩ := fits room
    have count : ptrs.length = (words space str).length := by
      rw [← done.strings, List.length_map]
    refine ⟨parsed, done.length, done.bytes, ?_⟩
    rw [exec_bind, exec_parse, line, ran]
    dsimp only
    rw [exec_bind, exec_cmdExecute]
    dsimp only
    rw [done.strings, count]
    by_cases none_left : words space str = []
    · have none_stored : ptrs = [] := by
        rw [← List.length_eq_zero_iff, count, none_left]
        rfl
      rw [if_pos none_left, if_pos none_stored]
      rfl
    · have some_stored : ptrs ≠ [] := by
        intro none_stored
        apply none_left
        rw [← List.length_eq_zero_iff, ← count, none_stored]
        rfl
      rw [if_neg none_left, if_neg some_stored]
      rfl

def lastActs (str : List UInt8) : Except Halt Unit × List Act :=
  if maxArgNr < (words space str).length then (.error .fault, [.dup2 (.const 1) (.const 1)])
  else if words space str = [] then (.error .fault, [.dup2 (.const 1) (.const 1), executeWords str])
  else (.ok (), [.dup2 (.const 1) (.const 1), executeWords str, .dup2 (.const 0) (.const 0), .close .readEnd,
    .close .writeEnd])

theorem exec_lastStage {before str rest : List UInt8} {s : Shell} (nonzero : 0 ∉ str)
    (line : s.line = before ++ (str ++ 0 :: rest)) :
    (exec (lastStage before.length) s).1 = (lastActs str).1 ∧
      (exec (lastStage before.length) s).2.acts = s.acts ++ (lastActs str).2 := by
  have staged := @exec_stage Unit before str rest { s with acts := s.acts ++ [.dup2 (.const 1) (.const 1)] } nonzero
    line closePipe
  rw [lastStage, exec_bind, exec_call, lastActs]
  dsimp only
  by_cases many : maxArgNr < (words space str).length
  · rw [staged.1 many, if_pos many]
    exact ⟨rfl, rfl⟩
  · obtain ⟨parsed, -, -, ran⟩ := staged.2 (by omega)
    rw [ran, if_neg many]
    by_cases none_left : words space str = []
    · rw [if_pos none_left, if_pos none_left]
      exact ⟨rfl, by simp⟩
    · rw [if_neg none_left, if_neg none_left]
      refine ⟨rfl, ?_⟩
      show s.acts ++ [_] ++ [_] ++ [_] ++ [_] ++ [_] = _
      simp only [List.append_assoc, List.cons_append, List.nil_append]

def branchActs (first others : List UInt8) : Except Halt Unit × List Act :=
  if maxArgNr < (words space first).length then (.error .fault, [.pipe, .dup2 (.const 1) .writeEnd])
  else if words space first = [] then (.error .fault, [.pipe, .dup2 (.const 1) .writeEnd, executeWords first])
  else ((lastActs others).1,
    [.pipe, .dup2 (.const 1) .writeEnd, executeWords first, .dup2 (.const 0) .readEnd] ++ (lastActs others).2)

theorem exec_cutFirst (first tail : List UInt8) :
    exec (pipelineBranch first.length) ⟨first ++ pipeSign :: tail, []⟩ = exec (do
      let (argc, argv) ← parse ([] : List UInt8).length
      cmdExecute argc argv
      laterStages first.length) ⟨[] ++ (first ++ 0 :: tail), [.pipe, .dup2 (.const 1) .writeEnd]⟩ := by
  have marked : (first ++ pipeSign :: tail).set first.length 0 = [] ++ (first ++ 0 :: tail) := by
    rw [List.set_append_right _ _ (Nat.le_refl _), Nat.sub_self]
    rfl
  rw [pipelineBranch, exec_bind, exec_call]
  dsimp only
  rw [exec_bind, exec_call]
  dsimp only
  rw [exec_bind, exec_cut]
  dsimp only
  rw [marked]
  rfl

theorem exec_laterStages {parsed others rest : List UInt8} {acts : List Act} (no_pipe : pipeSign ∉ parsed)
    (others_nonzero : 0 ∉ others) :
    (exec (laterStages parsed.length) ⟨[] ++ (parsed ++ 0 :: (others ++ 0 :: rest)), acts⟩).1 = (lastActs others).1 ∧
      (exec (laterStages parsed.length) ⟨[] ++ (parsed ++ 0 :: (others ++ 0 :: rest)), acts⟩).2.acts =
        acts ++ .dup2 (.const 0) .readEnd :: (lastActs others).2 := by
  have line : [] ++ (parsed ++ 0 :: (others ++ 0 :: rest)) = (parsed ++ [0]) ++ (others ++ 0 :: rest) := by
    simp
  have last := @exec_lastStage (parsed ++ [0]) others rest
    ⟨[] ++ (parsed ++ 0 :: (others ++ 0 :: rest)), acts ++ [.dup2 (.const 0) .readEnd]⟩ others_nonzero line
  have loop : ∀ fuel s, s.line = [] ++ (parsed ++ 0 :: (others ++ 0 :: rest)) →
      exec (pipelineLoop (fuel + 1) (parsed.length + 1)) s = (.ok (parsed.length + 1), s) := by
    intro fuel s same
    rw [pipelineLoop, exec_bind, exec_get]
    dsimp only
    rw [same, List.nil_append, strchr_none no_pipe]
    rfl
  have behind : (parsed ++ [(0 : UInt8)]).length = parsed.length + 1 := List.length_append
  rw [behind] at last
  rw [laterStages, exec_bind, exec_call]
  dsimp only
  rw [exec_bind, exec_get]
  dsimp only
  rw [exec_bind, loop _ _ rfl]
  dsimp only
  refine ⟨last.1, last.2.trans ?_⟩
  simp

theorem exec_branch {first others : List UInt8} (rest : List UInt8) (first_nonzero : 0 ∉ first)
    (others_nonzero : 0 ∉ others) (cut_first : pipeSign ∉ first) :
    (exec (pipelineBranch first.length) ⟨first ++ pipeSign :: (others ++ 0 :: rest), []⟩).1 =
      (branchActs first others).1 ∧
    (exec (pipelineBranch first.length) ⟨first ++ pipeSign :: (others ++ 0 :: rest), []⟩).2.acts =
      (branchActs first others).2 := by
  have staged := @exec_stage Unit [] first (others ++ 0 :: rest)
    ⟨[] ++ (first ++ 0 :: (others ++ 0 :: rest)), [.pipe, .dup2 (.const 1) .writeEnd]⟩ first_nonzero rfl
    (laterStages first.length)
  rw [exec_cutFirst, branchActs]
  by_cases many : maxArgNr < (words space first).length
  · rw [staged.1 many, if_pos many]
    exact ⟨rfl, rfl⟩
  · obtain ⟨parsed, length, bytes, ran⟩ := staged.2 (by omega)
    rw [ran, if_neg many]
    by_cases none_left : words space first = []
    · rw [if_pos none_left, if_pos none_left]
      exact ⟨rfl, rfl⟩
    · have no_pipe : pipeSign ∉ parsed := by
        intro member
        rcases bytes pipeSign member with kept | zero
        · exact cut_first kept
        · exact absurd zero (by decide)
      have later := @exec_laterStages parsed others rest
        ([.pipe, .dup2 (.const 1) .writeEnd] ++ [executeWords first]) no_pipe others_nonzero
      rw [length] at later
      rw [if_neg none_left, if_neg none_left]
      exact later

theorem turn_pipe {first others : List UInt8} (rest : List UInt8) (first_nonzero : 0 ∉ first)
    (others_nonzero : 0 ∉ others) (cut_first : pipeSign ∉ first) :
    Shell.turn (first ++ pipeSign :: (others ++ 0 :: rest)) = branchActs first others := by
  have branch := exec_branch rest first_nonzero others_nonzero cut_first
  have ran : exec mainTurn ⟨first ++ pipeSign :: (others ++ 0 :: rest), []⟩ =
      exec (pipelineBranch first.length) ⟨first ++ pipeSign :: (others ++ 0 :: rest), []⟩ := by
    have started : byteAt (first ++ pipeSign :: (others ++ 0 :: rest)) 0 ≠ 0 := by
      cases first with
      | nil => exact (by decide : pipeSign ≠ 0)
      | cons c first => exact fun zero => first_nonzero (List.mem_cons.mpr (.inl zero.symm))
    rw [mainTurn, exec_bind, exec_get]
    dsimp only
    rw [if_neg started, strchr_found _ (by decide) first_nonzero cut_first]
  show ((exec mainTurn _).1, (exec mainTurn _).2.acts) = _
  rw [ran, branch.1, branch.2]

def calls (acts : List Act) : List (List (List UInt8)) :=
  acts.filterMap fun act => match act with
    | .execute _ argv => some argv
    | _ => none

/-- Each segment of the line is executed once, in order, with its words. -/
structure RunsStages (line : List UInt8) (acts : List Act) : Prop where
  count : (calls acts).length = line.count pipeSign + 1
  each : calls acts = (line.splitOn pipeSign).map (words space)
  clean : ∀ argv ∈ calls acts, ∀ word ∈ argv, pipeSign ∉ word

theorem calls_lastActs (str : List UInt8) :
    calls (lastActs str).2 = if maxArgNr < (words space str).length then [] else [words space str] := by
  unfold lastActs
  split
  · rfl
  · split
    · rfl
    · rfl

theorem calls_branchActs (first others : List UInt8) : calls (branchActs first others).2 =
    if maxArgNr < (words space first).length then []
    else if words space first = [] then [words space first]
    else words space first :: calls (lastActs others).2 := by
  unfold branchActs
  split
  · rfl
  · split
    · rfl
    · rfl

theorem mem_of_mem_splitOn {sep : UInt8} {str : List UInt8} :
    ∀ part ∈ str.splitOn sep, ∀ c ∈ part, c ∈ str := by
  induction str with
  | nil =>
    intro part member c inside
    rw [List.splitOn_nil, List.mem_singleton] at member
    rw [member] at inside
    exact inside
  | cons d str ih =>
    intro part member c inside
    rw [List.splitOn_cons_eq_if_modifyHead] at member
    split at member
    · rcases List.mem_cons.mp member with empty | later
      · rw [empty] at inside
        cases inside
      · exact List.mem_cons_of_mem d (ih part later c inside)
    · obtain ⟨head, parts, split_rest⟩ := List.exists_cons_of_ne_nil (List.splitOn_ne_nil sep str)
      rw [split_rest] at ih member
      rw [List.modifyHead_cons, List.mem_cons] at member
      rcases member with extended | later
      · rw [extended, List.mem_cons] at inside
        rcases inside with here | inside
        · exact List.mem_cons.mpr (.inl here)
        · exact List.mem_cons_of_mem d (ih head List.mem_cons_self c inside)
      · exact List.mem_cons_of_mem d (ih part (List.mem_cons_of_mem head later) c inside)

theorem words_clean {sep ch : UInt8} {str : List UInt8} (absent : ch ∉ str) : ∀ word ∈ words sep str, ch ∉ word := by
  intro word member inside
  exact absent (mem_of_mem_splitOn word (List.mem_filter.mp member).1 ch inside)

/-- The pipeline branch runs every stage exactly if there are two, with at most 16 words each, and the first one names a
    command. -/
theorem pipeline_runs_stages (line rest : List UInt8) (nonzero : 0 ∉ line) (piped : 1 ≤ line.count pipeSign) :
    RunsStages line (Shell.turn (line ++ 0 :: rest)).2 ↔
      line.count pipeSign = 1 ∧ (∀ segment ∈ line.splitOn pipeSign, (words space segment).length ≤ maxArgNr) ∧
        words space ((line.splitOn pipeSign).headD []) ≠ [] := by
  obtain ⟨first, others, parts, cut_first⟩ := List.eq_append_cons_of_mem (List.count_pos_iff.mp piped)
  subst parts
  simp only [List.mem_append, List.mem_cons, not_or] at nonzero
  have split_first : (first ++ pipeSign :: others).splitOn pipeSign = first :: others.splitOn pipeSign :=
    List.splitOn_append_cons_self_of_not_mem cut_first others
  have pipes : (first ++ pipeSign :: others).count pipeSign = others.count pipeSign + 1 := by
    rw [List.count_append, List.count_cons_self, List.count_eq_zero_of_not_mem cut_first, Nat.zero_add]
  have ran : (Shell.turn (first ++ pipeSign :: others ++ 0 :: rest)).2 = (branchActs first others).2 := by
    rw [List.append_assoc, List.cons_append, turn_pipe rest nonzero.1 nonzero.2.2 cut_first]
  rw [ran, split_first, pipes, List.headD_cons]
  constructor
  · intro runs
    have each := runs.each
    have count := runs.count
    rw [pipes] at count
    rw [split_first, List.map_cons, calls_branchActs] at each
    rw [calls_branchActs] at count
    by_cases many : maxArgNr < (words space first).length
    · rw [if_pos many] at each
      cases each
    · rw [if_neg many] at each count
      by_cases none_left : words space first = []
      · rw [if_pos none_left, List.length_singleton] at count
        omega
      · rw [if_neg none_left, calls_lastActs] at count
        by_cases many_last : maxArgNr < (words space others).length
        · rw [if_pos many_last, List.length_singleton] at count
          omega
        · rw [if_neg many_last] at count
          simp only [List.length_cons, List.length_nil] at count
          have single : others.count pipeSign = 0 := by omega
          have last : others.splitOn pipeSign = [others] :=
            List.splitOn_eq_singleton (List.count_eq_zero.mp single)
          refine ⟨by omega, ?_, none_left⟩
          intro segment member
          rw [last, List.mem_cons, List.mem_singleton] at member
          rcases member with rfl | rfl
          · omega
          · omega
  · intro two
    obtain ⟨count, fits, named⟩ := two
    have single : pipeSign ∉ others := List.count_eq_zero.mp (by omega)
    have last : others.splitOn pipeSign = [others] := List.splitOn_eq_singleton single
    rw [last] at fits
    have few := fits first List.mem_cons_self
    have few_last := fits others (List.mem_cons_of_mem first List.mem_cons_self)
    have called : calls (branchActs first others).2 = [words space first, words space others] := by
      rw [calls_branchActs, if_neg (by omega), if_neg named, calls_lastActs, if_neg (by omega)]
    constructor
    · rw [called, pipes]
      simp only [List.length_cons, List.length_nil]
      omega
    · rw [called, split_first, last]
      rfl
    · rw [called]
      intro argv member word inside
      rw [List.mem_cons, List.mem_singleton] at member
      rcases member with rfl | rfl
      · exact words_clean cut_first word inside
      · exact words_clean single word inside

/-- The line `ls|wc`. -/
theorem pipeline_runs_stages_closed :
    RunsStages [0x6c, 0x73, 0x7c, 0x77, 0x63] (Shell.turn ([0x6c, 0x73, 0x7c, 0x77, 0x63] ++ 0 :: [0])).2 ↔
      [0x6c, 0x73, 0x7c, 0x77, 0x63].count pipeSign = 1 ∧
        (∀ segment ∈ [0x6c, 0x73, 0x7c, 0x77, 0x63].splitOn pipeSign, (words space segment).length ≤ maxArgNr) ∧
        words space (([0x6c, 0x73, 0x7c, 0x77, 0x63].splitOn pipeSign).headD []) ≠ [] :=
  pipeline_runs_stages [0x6c, 0x73, 0x7c, 0x77, 0x63] [0] (by decide) (by decide)

/-- The line `a|b|c`: two commands are executed, and the second one is `b|c`. -/
theorem pipeline_drops_stage : calls (Shell.turn [0x61, 0x7c, 0x62, 0x7c, 0x63, 0]).2 = [[[0x61]], [[0x62, 0x7c, 0x63]]] ∧
    ¬ RunsStages [0x61, 0x7c, 0x62, 0x7c, 0x63] (Shell.turn ([0x61, 0x7c, 0x62, 0x7c, 0x63] ++ 0 :: [])).2 := by
  have called : calls (Shell.turn [0x61, 0x7c, 0x62, 0x7c, 0x63, 0]).2 = [[[0x61]], [[0x62, 0x7c, 0x63]]] := by decide
  refine ⟨called, ?_⟩
  intro runs
  have count := runs.count
  rw [List.cons_append, List.cons_append, List.cons_append, List.cons_append, List.cons_append, List.nil_append,
    called] at count
  exact absurd count (by decide)

end RecoverOs.Command
