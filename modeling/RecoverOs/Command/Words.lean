import RecoverOs.Command.Shell

namespace RecoverOs.Command

open Transition

/-- The pointers from `argv` on, where `none` is `NULL`; those from `maxArgNr` on lie behind the array. -/
abbrev Argv := Nat → Option Nat

/-- `stores` are the indices of `argv` that have been written. -/
structure ParseState where
  argc : Nat
  argv : Argv
  line : List UInt8
  stores : List Nat

def ParseState.store (s : ParseState) (next : Nat) : ParseState :=
  { s with argv := Function.update s.argv s.argc (some next), stores := s.stores ++ [s.argc] }

def clearArgv (argv : Argv) : Argv := fun i => if i < maxArgNr then none else argv i

def splitLoop (token : UInt8) : Nat → ParseState → Nat → Except Halt (Int × ParseState)
  | 0, _, _ => .error .stuck
  | fuel + 1, s, next =>
    if byteAt s.line next = 0 then .ok (s.argc, s)
    else
      let next := next + ((s.line.drop next).takeWhile (· == token)).length
      if byteAt s.line next = 0 then .ok (s.argc, s)
      else
        let s := s.store next
        let stop := next + ((s.line.drop next).takeWhile fun c => c != 0 && c != token).length
        let rest := if byteAt s.line stop = 0 then (s.line, stop) else (s.line.set stop 0, stop + 1)
        let s := { s with line := rest.1 }
        if maxArgNr < s.argc then .ok (-1, s) else splitLoop token fuel { s with argc := s.argc + 1 } rest.2

def cmdParseInto (line : List UInt8) (argv : Argv) (cmdStr : Nat) (token : UInt8) : Except Halt (Int × ParseState) :=
  splitLoop token (line.length + 1)
    { argc := 0, argv := clearArgv argv, line := line, stores := List.range maxArgNr } cmdStr

def runStarts (token : UInt8) (str : List UInt8) : List Nat :=
  (List.range str.length).filter fun i => decide (str[i]? ≠ some token ∧ (i = 0 ∨ str[i - 1]? = some token))

def runAt (token : UInt8) (str : List UInt8) (start : Nat) : List UInt8 := (str.drop start).takeWhile (· != token)

variable {token : UInt8} {str gap word tail : List UInt8}

theorem runStarts_append (token : UInt8) (front back : List UInt8) : runStarts token (front ++ token :: back) =
    runStarts token front ++ (runStarts token back).map fun start => front.length + 1 + start := by
  have size : (front ++ token :: back).length = front.length + 1 + back.length := by
    rw [List.length_append, List.length_cons]
    omega
  have at_token : (front ++ token :: back)[front.length]? = some token := by
    simp
  unfold runStarts
  rw [size, List.range_add, List.filter_append, List.range_succ, List.filter_append, List.filter_map]
  congr 1
  · rw [List.filter_cons, List.filter_nil, at_token]
    simp only [ne_eq, not_true_eq_false, false_and, decide_false, Bool.false_eq_true, if_false, List.append_nil]
    apply List.filter_congr
    intro i member
    have bound := List.mem_range.mp member
    rw [List.getElem?_append_left bound, List.getElem?_append_left (by omega)]
  · congr 1
    apply List.filter_congr
    intro i _
    have here : (front ++ token :: back)[front.length + 1 + i]? = back[i]? := by
      rw [List.getElem?_append_right (by omega), show front.length + 1 + i - front.length = i + 1 by omega,
        List.getElem?_cons_succ]
    have before : front.length + 1 + i = 0 ∨ (front ++ token :: back)[front.length + 1 + i - 1]? = some token ↔
        i = 0 ∨ back[i - 1]? = some token := by
      cases i with
      | zero => simp
      | succ i =>
        rw [List.getElem?_append_right (by omega), show front.length + 1 + (i + 1) - 1 - front.length = i + 1 by omega,
          List.getElem?_cons_succ]
        simp
    simp only [Function.comp, here, before]

theorem runStarts_gap (tokens : ∀ c ∈ gap, c = token) (str : List UInt8) :
    runStarts token (gap ++ str) = (runStarts token str).map fun start => gap.length + start := by
  induction gap with
  | nil => simp
  | cons c gap ih =>
    have first := runStarts_append token [] (gap ++ str)
    have none_before : runStarts token [] = [] := rfl
    rw [List.nil_append, none_before, List.nil_append,
      ih fun d member => tokens d (List.mem_cons_of_mem c member), List.map_map] at first
    rw [tokens c List.mem_cons_self, List.cons_append, first]
    apply List.map_congr_left
    intro start _
    simp only [Function.comp, List.length_nil, List.length_cons]
    omega

theorem runStarts_single (some_left : word ≠ []) (inside : token ∉ word) : runStarts token word = [0] := by
  have other : ∀ i : Nat, word[i]? ≠ some token := by
    intro i there
    exact inside (List.mem_of_getElem? there)
  cases word with
  | nil => exact absurd rfl some_left
  | cons c word =>
    unfold runStarts
    rw [List.length_cons, List.range_succ_eq_map, List.filter_cons, if_pos]
    · congr 1
      rw [List.filter_eq_nil_iff]
      intro i member
      obtain ⟨j, -, same⟩ := List.mem_map.mp member
      have positive : i ≠ 0 := by omega
      simp [positive, other]
    · simp only [other 0, ne_eq, not_false_eq_true, true_or, and_self, decide_true]

theorem runStarts_tokens (tokens : ∀ c ∈ gap, c = token) : runStarts token gap = [] := by
  have all := runStarts_gap tokens []
  rwa [List.append_nil] at all

theorem Turn.split (turn : Turn token str gap word tail) (some_left : word ≠ []) :
    ∃ mark, str = gap ++ word ++ mark ++ tail.tail ∧ mark.length = (markOf tail).length ∧ (∀ c ∈ mark, c = token) ∧
      runStarts token str =
        gap.length :: (runStarts token tail.tail).map fun start => (gap ++ word ++ mark).length + start := by
  rcases turn.ends with none_left | ⟨more, token_left⟩
  · refine ⟨[], ?_, ?_, ?_, ?_⟩
    · rw [turn.parts, none_left]
      simp
    · rw [none_left]
      rfl
    · intro c member
      cases member
    · rw [turn.parts, none_left, List.append_nil, runStarts_gap turn.tokens, runStarts_single some_left turn.inside]
      rfl
  · refine ⟨[token], ?_, ?_, ?_, ?_⟩
    · rw [turn.parts, token_left]
      simp
    · rw [token_left]
      rfl
    · intro c member
      exact List.mem_singleton.mp member
    · rw [turn.parts, token_left, runStarts_gap turn.tokens, runStarts_append,
        runStarts_single some_left turn.inside]
      simp [Function.comp_def, Nat.add_comm, Nat.add_left_comm]

theorem Turn.count (turn : Turn token str gap word tail) (some_left : word ≠ []) :
    (runStarts token str).length = (runStarts token tail.tail).length + 1 := by
  obtain ⟨mark, -, -, -, starts⟩ := turn.split some_left
  rw [starts, List.length_cons, List.length_map]

theorem runAt_word (turn : Turn token str gap word tail) : runAt token str gap.length = word := by
  have whole : word.takeWhile (· != token) = word := by
    rw [List.takeWhile_eq_self_iff]
    intro c member
    rw [bne_iff_ne]
    intro same
    rw [same] at member
    exact turn.inside member
  rw [runAt, turn.parts, List.drop_left]
  rcases turn.ends with none_left | ⟨more, token_left⟩
  · rw [none_left, List.append_nil, whole]
  · rw [token_left, List.takeWhile_append, if_pos (by rw [whole])]
    simp

theorem runAt_later (token : UInt8) (front back : List UInt8) (start : Nat) :
    runAt token (front ++ back) (front.length + start) = runAt token back start := by
  rw [runAt, ← List.drop_drop, List.drop_left, runAt]

theorem cstring_later (front back : List UInt8) (ptr : Nat) :
    cstring (front ++ back) (front.length + ptr) = cstring back ptr := by
  rw [cstring, ← List.drop_drop, List.drop_left, cstring]

theorem words_eq_runs (nonzero : 0 ∉ str) : words token str = (runStarts token str).map (runAt token str) := by
  induction size : str.length using Nat.strongRecOn generalizing str with
  | ind n ih =>
    obtain ⟨gap, word, tail, turn⟩ := turn_exists token nonzero
    by_cases none_left : word = []
    · subst none_left
      rw [turn.alone, runStarts_tokens turn.tokens, ← List.append_nil gap, words_gap turn.tokens]
      rfl
    · obtain ⟨mark, whole, marked, -, starts⟩ := turn.split none_left
      have shorter := turn.shorter none_left
      have moved : ∀ start, runAt token str ((gap ++ word ++ mark).length + start) = runAt token tail.tail start := by
        intro start
        rw [whole, runAt_later]
      rw [turn.words none_left, ih _ (by omega) (turn.tail_nonzero nonzero) rfl, starts, List.map_cons, runAt_word turn, List.map_map]
      congr 1
      apply List.map_congr_left
      intro start _
      rw [Function.comp, moved]

structure Cut (token : UInt8) (str rest parsed : List UInt8) : Prop where
  length : parsed.length = str.length
  strings : ∀ start ∈ runStarts token str, cstring (parsed ++ 0 :: rest) start = runAt token str start
  kept : ∀ p : Nat, parsed[p]? = str[p]? ∨ str[p]? = some token ∧
    ∃ start ∈ runStarts token str, p = start + (runAt token str start).length

theorem cut_tokens (tokens : ∀ c ∈ str, c = token) (rest : List UInt8) : Cut token str rest str := by
  refine ⟨rfl, ?_, fun _ => .inl rfl⟩
  intro start member
  rw [runStarts_tokens tokens] at member
  cases member

theorem Cut.cons {rest parsed : List UInt8} (turn : Turn token str gap word tail) (nonzero : 0 ∉ str)
    (some_left : word ≠ []) (later : Cut token tail.tail rest parsed) :
    Cut token str rest (gap ++ word ++ markOf tail ++ parsed) := by
  obtain ⟨mark, whole, marked, tokens, starts⟩ := turn.split some_left
  have moved : ∀ start, runAt token str ((gap ++ word ++ mark).length + start) = runAt token tail.tail start := by
    intro start
    rw [whole, runAt_later]
  have fronts : (gap ++ word ++ markOf tail).length = (gap ++ word ++ mark).length := by
    rw [List.length_append, ← marked, ← List.length_append]
  constructor
  · rw [whole, List.length_append, fronts, later.length, ← List.length_append]
  · intro start member
    rw [starts, List.mem_cons] at member
    rcases member with first | in_later
    · obtain ⟨more, ends⟩ := turn.ended later.length rest
      have line : gap ++ word ++ markOf tail ++ parsed ++ 0 :: rest = gap ++ (word ++ 0 :: more) := by
        rw [← ends]
        simp only [List.append_assoc]
      rw [first, runAt_word turn, line, cstring_word (turn.word_nonzero nonzero)]
    · obtain ⟨inner, in_tail, same⟩ := List.mem_map.mp in_later
      have line : gap ++ word ++ markOf tail ++ parsed ++ 0 :: rest =
          (gap ++ word ++ markOf tail) ++ (parsed ++ 0 :: rest) := by
        rw [List.append_assoc]
      rw [← same, line, ← fronts, cstring_later, later.strings inner in_tail, fronts, moved]
  · intro p
    by_cases early : p < (gap ++ word).length
    · left
      rw [whole, List.append_assoc, List.append_assoc (gap ++ word), List.getElem?_append_left early,
        List.getElem?_append_left early]
    · by_cases here : p < (gap ++ word ++ mark).length
      · right
        have at_mark : str[p]? = mark[p - (gap ++ word).length]? := by
          rw [whole, List.getElem?_append_left here, List.getElem?_append_right (by omega)]
        rw [List.length_append] at here
        have one : mark.length ≤ 1 := by
          rw [marked, markOf]
          split
          · exact Nat.zero_le 1
          · exact Nat.le_refl 1
        have inside : p - (gap ++ word).length < mark.length := by omega
        constructor
        · rw [at_mark, List.getElem?_eq_getElem inside, tokens _ (List.getElem_mem inside)]
        · refine ⟨gap.length, ?_, ?_⟩
          · rw [starts]
            exact List.mem_cons_self
          · rw [runAt_word turn, ← List.length_append]
            omega
      · obtain ⟨offset, place⟩ := Nat.exists_eq_add_of_le (Nat.le_of_not_lt here)
        have at_parsed : (gap ++ word ++ markOf tail ++ parsed)[p]? = parsed[offset]? := by
          rw [place, ← fronts, List.getElem?_append_right (Nat.le_add_right ..), Nat.add_sub_cancel_left]
        have at_tail : str[p]? = tail.tail[offset]? := by
          rw [whole, place, List.getElem?_append_right (Nat.le_add_right ..), Nat.add_sub_cancel_left]
        rw [at_parsed, at_tail]
        rcases later.kept offset with same | ⟨token_there, start, in_tail, ending⟩
        · exact .inl same
        · refine .inr ⟨token_there, (gap ++ word ++ mark).length + start, ?_, ?_⟩
          · rw [starts]
            exact List.mem_cons_of_mem _ (List.mem_map.mpr ⟨start, in_tail, rfl⟩)
          · rw [moved, place, ending, Nat.add_assoc]

def storeAll (argv : Argv) (argc : Nat) (ptrs : List Nat) : Argv := fun i =>
  if argc ≤ i then (ptrs[i - argc]?).or (argv i) else argv i

theorem storeAll_nil (argv : Argv) (argc : Nat) : storeAll argv argc [] = argv := by
  funext i
  simp [storeAll]

theorem storeAll_cons (argv : Argv) (argc ptr : Nat) (ptrs : List Nat) :
    storeAll (Function.update argv argc (some ptr)) (argc + 1) ptrs = storeAll argv argc (ptr :: ptrs) := by
  funext i
  unfold storeAll
  rcases Nat.lt_trichotomy i argc with below | here | above
  · rw [if_neg (by omega), if_neg (by omega), Function.update_of_ne (by omega)]
  · rw [if_neg (by omega), if_pos (by omega), here, Function.update_self, Nat.sub_self]
    rfl
  · rw [if_pos (by omega), if_pos (by omega), Function.update_of_ne (by omega),
      show i - argc = i - (argc + 1) + 1 by omega, List.getElem?_cons_succ]

theorem splitLoop_end (turn : Turn token str gap [] tail) (nonzero : 0 ∉ str) (fuel argc : Nat) (argv : Argv)
    (before rest : List UInt8) (stores : List Nat) :
    splitLoop token (fuel + 1) ⟨argc, argv, before ++ (str ++ 0 :: rest), stores⟩ before.length =
      .ok (argc, ⟨argc, argv, before ++ (str ++ 0 :: rest), stores⟩) := by
  have only := turn.alone
  rw [splitLoop]
  dsimp only
  cases str with
  | nil =>
    rw [byteAt_head, if_pos]
    rfl
  | cons c more =>
    have here : c = token := by
      apply turn.tokens
      rw [← only]
      exact List.mem_cons_self
    have stops : ((0 : UInt8) == token) = false := by
      rw [beq_eq_false_iff_ne, ← here]
      exact fun zero => nonzero (zero ▸ List.mem_cons_self)
    have skipped : ((before ++ (c :: more ++ 0 :: rest)).drop before.length).takeWhile (· == token) = c :: more := by
      rw [List.drop_left, takeWhile_string stops, turn.skips, ← only]
    have at_end : byteAt (before ++ (c :: more ++ 0 :: rest)) (before.length + (c :: more).length) = 0 := by
      have moved := byteAt_head (before ++ c :: more) [] rest
      rw [List.length_append, List.append_assoc] at moved
      exact moved
    rw [skipped, at_end, if_pos rfl, ite_self]

theorem splitLoop_word {before rest : List UInt8} (turn : Turn token str gap word tail) (nonzero : 0 ∉ str)
    (here : Positions token before str gap word tail rest) (fuel argc : Nat) (argv : Argv) (stores : List Nat) :
    splitLoop token (fuel + 1) ⟨argc, argv, before ++ (str ++ 0 :: rest), stores⟩ before.length =
      if maxArgNr < argc then
        .ok (-1, ⟨argc, Function.update argv argc (some (before.length + gap.length)),
          before ++ gap ++ word ++ markOf tail ++ (tail.tail ++ 0 :: rest), stores ++ [argc]⟩)
      else splitLoop token fuel ⟨argc + 1, Function.update argv argc (some (before.length + gap.length)),
        before ++ gap ++ word ++ markOf tail ++ (tail.tail ++ 0 :: rest), stores ++ [argc]⟩
        (before ++ gap ++ word ++ markOf tail).length := by
  rw [splitLoop]
  dsimp only [ParseState.store]
  rw [if_neg here.atStart, here.skipped, if_neg here.atWord, here.scanned, turn.cut nonzero here]

theorem splitLoop_fits (nonzero : 0 ∉ str) (fuel argc : Nat) (enough : str.length < fuel) (argv : Argv)
    (before rest : List UInt8) (stores : List Nat) (fits : argc + (runStarts token str).length ≤ maxArgNr + 1) :
    ∃ parsed, Cut token str rest parsed ∧
      splitLoop token fuel ⟨argc, argv, before ++ (str ++ 0 :: rest), stores⟩ before.length =
        .ok ((argc + (runStarts token str).length : Nat), ⟨argc + (runStarts token str).length,
          storeAll argv argc ((runStarts token str).map (before.length + ·)), before ++ (parsed ++ 0 :: rest),
          stores ++ List.range' argc (runStarts token str).length⟩) := by
  induction fuel generalizing str argc argv before stores with
  | zero => omega
  | succ fuel ih =>
    obtain ⟨gap, word, tail, turn⟩ := turn_exists token nonzero
    by_cases none_left : word = []
    · subst none_left
      have tokens : ∀ c ∈ str, c = token := by
        rw [turn.alone]
        exact turn.tokens
      refine ⟨str, cut_tokens tokens rest, ?_⟩
      rw [splitLoop_end turn nonzero, runStarts_tokens tokens]
      simp [storeAll_nil]
    · obtain ⟨mark, -, marked, -, starts⟩ := turn.split none_left
      have here := turn.positions nonzero none_left before rest
      have shorter := turn.shorter none_left
      have count := turn.count none_left
      obtain ⟨parsed, cut, ran⟩ := ih (turn.tail_nonzero nonzero) (argc + 1) (by omega)
        (Function.update argv argc (some (before.length + gap.length))) (before ++ gap ++ word ++ markOf tail)
        (stores ++ [argc]) (by omega)
      have pointers : (runStarts token str).map (before.length + ·) = (before.length + gap.length) ::
          (runStarts token tail.tail).map ((before ++ gap ++ word ++ markOf tail).length + ·) := by
        rw [starts, List.map_cons, List.map_map]
        congr 1
        apply List.map_congr_left
        intro start _
        simp only [Function.comp, List.length_append, marked]
        omega
      refine ⟨gap ++ word ++ markOf tail ++ parsed, cut.cons turn nonzero none_left, ?_⟩
      rw [splitLoop_word turn nonzero here, if_neg (by omega), ran, pointers, storeAll_cons, count, List.range'_succ,
        show argc + 1 + (runStarts token tail.tail).length = argc + ((runStarts token tail.tail).length + 1) by omega]
      simp only [List.append_assoc, List.cons_append, List.nil_append]

theorem splitLoop_many (nonzero : 0 ∉ str) (fuel argc : Nat) (enough : str.length < fuel) (argv : Argv)
    (before rest : List UInt8) (stores : List Nat) (low : argc ≤ maxArgNr + 1)
    (many : maxArgNr + 1 < argc + (runStarts token str).length) :
    ∃ out, splitLoop token fuel ⟨argc, argv, before ++ (str ++ 0 :: rest), stores⟩ before.length = .ok (-1, out) ∧
      out.stores = stores ++ List.range' argc (maxArgNr + 2 - argc) := by
  induction fuel generalizing str argc argv before stores with
  | zero => omega
  | succ fuel ih =>
    obtain ⟨gap, word, tail, turn⟩ := turn_exists token nonzero
    by_cases none_left : word = []
    · subst none_left
      rw [turn.alone, runStarts_tokens turn.tokens, List.length_nil] at many
      omega
    · have here := turn.positions nonzero none_left before rest
      rw [splitLoop_word turn nonzero here]
      by_cases full : maxArgNr < argc
      · have last : argc = maxArgNr + 1 := by omega
        rw [if_pos full]
        refine ⟨_, rfl, ?_⟩
        rw [last]
        rfl
      · have shorter := turn.shorter none_left
        have count := turn.count none_left
        obtain ⟨out, ran, stored⟩ := ih (turn.tail_nonzero nonzero) (argc + 1) (by omega)
          (Function.update argv argc (some (before.length + gap.length))) (before ++ gap ++ word ++ markOf tail)
          (stores ++ [argc]) (by omega) (by omega)
        refine ⟨out, ?_, ?_⟩
        · rw [if_neg full, ran]
        · rw [stored, show maxArgNr + 2 - argc = maxArgNr + 2 - (argc + 1) + 1 by omega, List.range'_succ,
            List.append_assoc]
          rfl

theorem cmdParseInto_fits (nonzero : 0 ∉ str) (argv : Argv) (before rest : List UInt8)
    (fits : (runStarts token str).length ≤ maxArgNr + 1) :
    ∃ parsed, Cut token str rest parsed ∧
      cmdParseInto (before ++ (str ++ 0 :: rest)) argv before.length token =
        .ok ((runStarts token str).length, ⟨(runStarts token str).length,
          storeAll (clearArgv argv) 0 ((runStarts token str).map (before.length + ·)), before ++ (parsed ++ 0 :: rest),
          List.range maxArgNr ++ List.range' 0 (runStarts token str).length⟩) := by
  have enough : str.length < (before ++ (str ++ 0 :: rest)).length + 1 := by
    simp only [List.length_append]
    omega
  have ran := @splitLoop_fits token str nonzero _ 0 enough (clearArgv argv) before rest (List.range maxArgNr) (by omega)
  rwa [Nat.zero_add] at ran

theorem cmdParseInto_many (nonzero : 0 ∉ str) (argv : Argv) (before rest : List UInt8)
    (many : maxArgNr + 1 < (runStarts token str).length) :
    ∃ out, cmdParseInto (before ++ (str ++ 0 :: rest)) argv before.length token = .ok (-1, out) ∧
      out.stores = List.range maxArgNr ++ List.range' 0 (maxArgNr + 2) := by
  have enough : str.length < (before ++ (str ++ 0 :: rest)).length + 1 := by
    simp only [List.length_append]
    omega
  exact splitLoop_many nonzero _ 0 enough (clearArgv argv) before rest (List.range maxArgNr) (Nat.zero_le _) (by omega)

theorem splitLoop_parse {fuel next : Nat} {line after : List UInt8} {ptrs found : List Nat} {result : Int}
    (ran : parseLoop token fuel line next ptrs = .ok (result, found, after)) (argv : Argv) (stores : List Nat) :
    ∃ more, found = ptrs ++ more ∧ splitLoop token fuel ⟨ptrs.length, argv, line, stores⟩ next =
      .ok (result, ⟨found.length, storeAll argv ptrs.length more, after,
        stores ++ List.range' ptrs.length more.length⟩) := by
  induction fuel generalizing next line ptrs argv stores with
  | zero => cases ran
  | succ fuel ih =>
    rw [parseLoop] at ran
    rw [splitLoop]
    dsimp only [ParseState.store] at ran ⊢
    generalize next + ((line.drop next).takeWhile (· == token)).length = start at ran ⊢
    have unchanged : ∃ more, ptrs = ptrs ++ more ∧ (.ok ((ptrs.length : Int), ⟨ptrs.length, argv, line, stores⟩) :
        Except Halt (Int × ParseState)) = .ok (ptrs.length, ⟨ptrs.length, storeAll argv ptrs.length more, line,
          stores ++ List.range' ptrs.length more.length⟩) := by
      refine ⟨[], (List.append_nil _).symm, ?_⟩
      rw [storeAll_nil, List.length_nil, List.range'_zero, List.append_nil]
    split at ran
    · rename_i ended
      cases ran
      rw [if_pos ended]
      exact unchanged
    · rename_i going
      rw [if_neg going]
      split at ran
      · rename_i ended
        cases ran
        rw [if_pos ended]
        exact unchanged
      · rename_i in_word
        split at ran
        · cases ran
        · rename_i room
          rw [if_neg (by omega)] at ran
          rw [if_neg in_word, if_neg (by omega)]
          obtain ⟨more, whole, same⟩ := ih ran (Function.update argv ptrs.length (some start)) (stores ++ [ptrs.length])
          rw [List.length_append, List.length_singleton] at same
          refine ⟨start :: more, ?_, ?_⟩
          · rw [whole, List.append_assoc]
            rfl
          · rw [same, storeAll_cons, List.length_cons, List.range'_succ, List.append_assoc]
            rfl

/-- Where `cmdParse` returns, `cmd_parse` has stored the same pointers in `argv` and made the same line. -/
theorem cmdParseInto_of_cmdParse {cmdStr : Nat} {line after : List UInt8} {ptrs : List Nat} {result : Int}
    (ran : cmdParse line cmdStr token = .ok (result, ptrs, after)) (argv : Argv) :
    cmdParseInto line argv cmdStr token = .ok (result, ⟨ptrs.length, storeAll (clearArgv argv) 0 ptrs, after,
      List.range maxArgNr ++ List.range' 0 ptrs.length⟩) := by
  obtain ⟨more, whole, same⟩ := splitLoop_parse ran (clearArgv argv) (List.range maxArgNr)
  rw [List.nil_append] at whole
  rw [whole] at same ⊢
  exact same

/-- The pointers that are stored lead to the runs, and nothing else of `argv` and of the line is touched. -/
structure SplitsWords (token : UInt8) (before str rest : List UInt8) (result : Int) (out : ParseState) : Prop where
  count : result = (runStarts token str).length
  pointers : ∀ i start, (runStarts token str)[i]? = some start → out.argv i = some (before.length + start)
  strings : ∀ start ∈ runStarts token str, cstring out.line (before.length + start) = runAt token str start
  null : ∀ i, (runStarts token str).length ≤ i → i < maxArgNr → out.argv i = none
  bytes : ∀ p : Nat, out.line[p]? = (before ++ (str ++ 0 :: rest))[p]? ∨
    (before ++ (str ++ 0 :: rest))[p]? = some token ∧
      ∃ start ∈ runStarts token str, p = before.length + start + (runAt token str start).length

theorem Cut.bytes {rest parsed : List UInt8} (cut : Cut token str rest parsed) (before : List UInt8) (p : Nat) :
    (before ++ (parsed ++ 0 :: rest))[p]? = (before ++ (str ++ 0 :: rest))[p]? ∨
      (before ++ (str ++ 0 :: rest))[p]? = some token ∧
        ∃ start ∈ runStarts token str, p = before.length + start + (runAt token str start).length := by
  by_cases early : p < before.length
  · left
    rw [List.getElem?_append_left early, List.getElem?_append_left early]
  · obtain ⟨offset, place⟩ := Nat.exists_eq_add_of_le (Nat.le_of_not_lt early)
    have skipped : ∀ text : List UInt8, (before ++ text)[p]? = text[offset]? := by
      intro text
      rw [place, List.getElem?_append_right (Nat.le_add_right ..), Nat.add_sub_cancel_left]
    rw [skipped, skipped]
    by_cases inside : offset < str.length
    · rw [List.getElem?_append_left (by rw [cut.length]; exact inside), List.getElem?_append_left inside]
      rcases cut.kept offset with same | ⟨token_there, start, member, ending⟩
      · exact .inl same
      · exact .inr ⟨token_there, start, member, by rw [place, ending, Nat.add_assoc]⟩
    · left
      rw [List.getElem?_append_right (by rw [cut.length]; omega), List.getElem?_append_right (by omega), cut.length]

/-- `cmd_parse` cuts a string of at most 16 words into its words. -/
theorem cmd_parse_splits (token : UInt8) (before str rest : List UInt8) (argv : Argv) (nonzero : 0 ∉ str)
    (few : (runStarts token str).length ≤ maxArgNr) : ∃ result out,
      cmdParseInto (before ++ (str ++ 0 :: rest)) argv before.length token = .ok (result, out) ∧
      SplitsWords token before str rest result out := by
  obtain ⟨parsed, cut, ran⟩ := cmdParseInto_fits nonzero argv before rest (Nat.le_succ_of_le few)
  refine ⟨_, _, ran, ?_⟩
  constructor
  · rfl
  · intro i start there
    have stored : ((runStarts token str).map (before.length + ·))[i]? = some (before.length + start) := by
      rw [List.getElem?_map, there]
      rfl
    simp only [storeAll, Nat.zero_le, if_true, Nat.sub_zero, stored, Option.some_or]
  · intro start member
    rw [cstring_later, cut.strings start member]
  · intro i low high
    have none_stored : ((runStarts token str).map (before.length + ·))[i]? = none := by
      rw [List.getElem?_eq_none_iff, List.length_map]
      exact low
    simp only [storeAll, Nat.zero_le, if_true, Nat.sub_zero, none_stored, Option.none_or, clearArgv, if_pos high]
  · exact cut.bytes before

theorem cmd_parse_splits_closed : ∃ result out,
    cmdParseInto ([] ++ ([0x20, 0x6c, 0x73, 0x20, 0x20, 0x2f, 0x20] ++ 0 :: [])) (fun _ => some 0) 0 space =
      .ok (result, out) ∧ SplitsWords space [] [0x20, 0x6c, 0x73, 0x20, 0x20, 0x2f, 0x20] [] result out :=
  cmd_parse_splits space [] [0x20, 0x6c, 0x73, 0x20, 0x20, 0x2f, 0x20] [] (fun _ => some 0) (by decide) (by decide)

/-- Only entries of the array are written, and a string with more words than it has entries is refused. -/
def KeepsToArgv (token : UInt8) (before str rest : List UInt8) (argv : Argv) : Prop := ∃ result out,
  cmdParseInto (before ++ (str ++ 0 :: rest)) argv before.length token = .ok (result, out) ∧
  (∀ i ∈ out.stores, i < maxArgNr) ∧ (maxArgNr < (runStarts token str).length → result = -1)

/-- `cmd_parse` keeps to `argv` exactly if it has an entry for every word. -/
theorem cmd_parse_keeps_to_argv_iff (token : UInt8) (before str rest : List UInt8) (argv : Argv) (nonzero : 0 ∉ str) :
    KeepsToArgv token before str rest argv ↔ (runStarts token str).length ≤ maxArgNr := by
  constructor
  · intro keeps
    obtain ⟨result, out, ran, inside, -⟩ := keeps
    by_contra more
    -- the index `maxArgNr` has been written, whether the call is refused or not
    have outside : maxArgNr ∈ out.stores := by
      by_cases fits : (runStarts token str).length ≤ maxArgNr + 1
      · obtain ⟨parsed, cut, same⟩ := cmdParseInto_fits nonzero argv before rest fits
        rw [same] at ran
        cases ran
        rw [List.mem_append, List.mem_range'_1]
        exact .inr ⟨Nat.zero_le _, by omega⟩
      · obtain ⟨other, same, stores⟩ := cmdParseInto_many nonzero argv before rest (Nat.lt_of_not_le fits)
        rw [same] at ran
        cases ran
        rw [stores, List.mem_append, List.mem_range'_1]
        exact .inr ⟨Nat.zero_le _, by omega⟩
    exact Nat.lt_irrefl _ (inside maxArgNr outside)
  · intro few
    obtain ⟨parsed, cut, ran⟩ := cmdParseInto_fits nonzero argv before rest (Nat.le_succ_of_le few)
    refine ⟨_, _, ran, ?_, fun more => absurd few (Nat.not_le.mpr more)⟩
    intro i member
    rw [List.mem_append, List.mem_range, List.mem_range'_1] at member
    omega

theorem cmd_parse_keeps_to_argv_two : KeepsToArgv space [] [0x6c, 0x73, 0x20, 0x2f] [] (fun _ => none) :=
  (cmd_parse_keeps_to_argv_iff space [] [0x6c, 0x73, 0x20, 0x2f] [] (fun _ => none) (by decide)).mpr (by decide)

def seventeenWords : List UInt8 := (List.replicate 17 [0x61, 0x20]).flatten

theorem seventeen_words_overrun : (runStarts space seventeenWords).length = 17 ∧ ∃ out,
    cmdParseInto (seventeenWords ++ 0 :: []) (fun _ => none) 0 space = .ok (17, out) ∧ 16 ∈ out.stores ∧
    ¬ KeepsToArgv space [] seventeenWords [] (fun _ => none) := by
  have count : (runStarts space seventeenWords).length = 17 := by decide +kernel
  have ran : endsIn (cmdParseInto (seventeenWords ++ 0 :: []) (fun _ => none) 0 space)
      (fun r => decide (r.1 = 17 ∧ 16 ∈ r.2.stores)) = true := by decide +kernel
  obtain ⟨⟨result, out⟩, same, found⟩ := exists_of_endsIn ran
  obtain ⟨seventeen, stored⟩ := of_decide_eq_true found
  dsimp only at seventeen stored
  rw [seventeen] at same
  refine ⟨count, out, same, stored, ?_⟩
  intro keeps
  obtain ⟨other, last, again, inside, -⟩ := keeps
  have both := again.symm.trans same
  cases both
  exact absurd (inside 16 stored) (by decide)

end RecoverOs.Command
