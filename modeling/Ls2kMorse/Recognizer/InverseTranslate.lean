import Ls2kMorse.Lib.WriteBuffer
import Ls2kMorse.Morse.Alphabet
import Mathlib.Data.List.TakeWhile

/-!
# The group decoder of the recogniser

`inverse_translate` walks over `a[200]`.  At `MORSE_START` and at each
`MORSE_ZIFU_KONG` it copies the symbols up to the next separator into the local
array `c[7]`, compares the group with the codes of its length and appends to
`code[31]`, which was filled with `~`.  The branches for the other lengths are
`if`/`else if` chains, the branch for six symbols is a sequence of separate
`if` statements whose one `else` belongs to the last of them.

Reads outside `a`, writes outside `c` and writes outside `code` are failures.

Main results:

- Theorem `inverseTranslate_isSome_iff`: when the decoder stays inside its arrays.
- Theorem `inverseTranslate_eq`: on an opened and terminated array the decoder
  appends, group by group, what the comparisons of the group yield.
- Theorem `groupChars_eq`: every comparison chain yields the listed character,
  and the eleven signs of six symbols other than `@` also yield a `~`.
- Theorem `inverseTranslate_one_per_group_iff`: the decoder appends exactly one
  character for each nonempty group if and only if none of these eleven signs
  is among the groups.
-/

namespace Ls2kMorse

open Lib

/-! ## Comparisons in source order -/

/-- Comparisons of a group with one symbol. -/
def comparisons1 : List (List Int × Char) :=
  [ ([MORSE_CI_KONG], ' '), ([MORSE_DIAN], 'E'), ([MORSE_HUA], 'T') ]

/-- Comparisons of a group with two symbols. -/
def comparisons2 : List (List Int × Char) :=
  [ ([MORSE_DIAN, MORSE_HUA], 'A'), ([MORSE_DIAN, MORSE_DIAN], 'I'),
    ([MORSE_HUA, MORSE_HUA], 'M'), ([MORSE_HUA, MORSE_DIAN], 'N') ]

/-- Comparisons of a group with three symbols. -/
def comparisons3 : List (List Int × Char) :=
  [ ([MORSE_HUA, MORSE_DIAN, MORSE_DIAN], 'D'), ([MORSE_HUA, MORSE_HUA, MORSE_DIAN], 'G'),
    ([MORSE_HUA, MORSE_DIAN, MORSE_HUA], 'K'), ([MORSE_HUA, MORSE_HUA, MORSE_HUA], 'O'),
    ([MORSE_DIAN, MORSE_HUA, MORSE_DIAN], 'R'), ([MORSE_DIAN, MORSE_DIAN, MORSE_DIAN], 'S'),
    ([MORSE_DIAN, MORSE_DIAN, MORSE_HUA], 'U'), ([MORSE_DIAN, MORSE_HUA, MORSE_HUA], 'W') ]

/-- Comparisons of a group with four symbols.  The codes of `H` and `&` are the
same, so the last comparison is never reached. -/
def comparisons4 : List (List Int × Char) :=
  [ ([MORSE_HUA, MORSE_DIAN, MORSE_DIAN, MORSE_DIAN], 'B'),
    ([MORSE_HUA, MORSE_DIAN, MORSE_HUA, MORSE_DIAN], 'C'),
    ([MORSE_DIAN, MORSE_DIAN, MORSE_HUA, MORSE_DIAN], 'F'),
    ([MORSE_DIAN, MORSE_DIAN, MORSE_DIAN, MORSE_DIAN], 'H'),
    ([MORSE_DIAN, MORSE_HUA, MORSE_HUA, MORSE_HUA], 'J'),
    ([MORSE_DIAN, MORSE_HUA, MORSE_DIAN, MORSE_DIAN], 'L'),
    ([MORSE_DIAN, MORSE_HUA, MORSE_HUA, MORSE_DIAN], 'P'),
    ([MORSE_HUA, MORSE_HUA, MORSE_DIAN, MORSE_HUA], 'Q'),
    ([MORSE_DIAN, MORSE_DIAN, MORSE_DIAN, MORSE_HUA], 'V'),
    ([MORSE_HUA, MORSE_DIAN, MORSE_DIAN, MORSE_HUA], 'X'),
    ([MORSE_HUA, MORSE_DIAN, MORSE_HUA, MORSE_HUA], 'Y'),
    ([MORSE_HUA, MORSE_HUA, MORSE_DIAN, MORSE_DIAN], 'Z'),
    ([MORSE_DIAN, MORSE_DIAN, MORSE_DIAN, MORSE_DIAN], '&') ]

/-- Comparisons of a group with five symbols. -/
def comparisons5 : List (List Int × Char) :=
  [ ([MORSE_HUA, MORSE_HUA, MORSE_HUA, MORSE_HUA, MORSE_HUA], '0'),
    ([MORSE_DIAN, MORSE_HUA, MORSE_HUA, MORSE_HUA, MORSE_HUA], '1'),
    ([MORSE_DIAN, MORSE_DIAN, MORSE_HUA, MORSE_HUA, MORSE_HUA], '2'),
    ([MORSE_DIAN, MORSE_DIAN, MORSE_DIAN, MORSE_HUA, MORSE_HUA], '3'),
    ([MORSE_DIAN, MORSE_DIAN, MORSE_DIAN, MORSE_DIAN, MORSE_HUA], '4'),
    ([MORSE_DIAN, MORSE_DIAN, MORSE_DIAN, MORSE_DIAN, MORSE_DIAN], '5'),
    ([MORSE_HUA, MORSE_DIAN, MORSE_DIAN, MORSE_DIAN, MORSE_DIAN], '6'),
    ([MORSE_HUA, MORSE_HUA, MORSE_DIAN, MORSE_DIAN, MORSE_DIAN], '7'),
    ([MORSE_HUA, MORSE_HUA, MORSE_HUA, MORSE_DIAN, MORSE_DIAN], '8'),
    ([MORSE_HUA, MORSE_HUA, MORSE_HUA, MORSE_HUA, MORSE_DIAN], '9'),
    ([MORSE_HUA, MORSE_DIAN, MORSE_DIAN, MORSE_DIAN, MORSE_HUA], '='),
    ([MORSE_HUA, MORSE_DIAN, MORSE_DIAN, MORSE_HUA, MORSE_DIAN], '/'),
    ([MORSE_HUA, MORSE_DIAN, MORSE_HUA, MORSE_HUA, MORSE_DIAN], '(') ]

/-- The comparisons of a group with six symbols that have no `else`. -/
def comparisons6 : List (List Int × Char) :=
  [ ([MORSE_DIAN, MORSE_HUA, MORSE_DIAN, MORSE_HUA, MORSE_DIAN, MORSE_HUA], '.'),
    ([MORSE_HUA, MORSE_HUA, MORSE_HUA, MORSE_DIAN, MORSE_DIAN, MORSE_DIAN], ':'),
    ([MORSE_HUA, MORSE_HUA, MORSE_DIAN, MORSE_DIAN, MORSE_HUA, MORSE_HUA], ','),
    ([MORSE_HUA, MORSE_DIAN, MORSE_HUA, MORSE_DIAN, MORSE_HUA, MORSE_DIAN], ';'),
    ([MORSE_DIAN, MORSE_DIAN, MORSE_HUA, MORSE_HUA, MORSE_DIAN, MORSE_DIAN], '?'),
    ([MORSE_DIAN, MORSE_HUA, MORSE_HUA, MORSE_HUA, MORSE_HUA, MORSE_DIAN], '\''),
    ([MORSE_HUA, MORSE_DIAN, MORSE_HUA, MORSE_DIAN, MORSE_HUA, MORSE_HUA], '!'),
    ([MORSE_HUA, MORSE_DIAN, MORSE_DIAN, MORSE_DIAN, MORSE_DIAN, MORSE_HUA], '-'),
    ([MORSE_DIAN, MORSE_DIAN, MORSE_HUA, MORSE_HUA, MORSE_DIAN, MORSE_HUA], '_'),
    ([MORSE_DIAN, MORSE_HUA, MORSE_DIAN, MORSE_DIAN, MORSE_HUA, MORSE_DIAN], '\"'),
    ([MORSE_HUA, MORSE_DIAN, MORSE_HUA, MORSE_HUA, MORSE_DIAN, MORSE_HUA], ')') ]

/-- The last comparison of a group with six symbols, the one with the `else`. -/
def comparison6Last : List Int × Char :=
  ([MORSE_DIAN, MORSE_HUA, MORSE_HUA, MORSE_DIAN, MORSE_HUA, MORSE_DIAN], '@')

/-- Comparison of a group with seven symbols. -/
def comparisons7 : List (List Int × Char) :=
  [ ([MORSE_DIAN, MORSE_DIAN, MORSE_DIAN, MORSE_HUA, MORSE_DIAN, MORSE_DIAN, MORSE_HUA], '$') ]

/-! ## The decoder as the source computes it -/

/-- An `if`/`else if` chain with a final `else` that appends `~`. -/
def elseIfChain (comparisons : List (List Int × Char)) (c : List Int) : List Char :=
  match comparisons.find? fun p => p.1 == c with
  | some p => [p.2]
  | none => ['~']

/-- Separate `if` statements; only the last one has an `else`. -/
def ifSequence (comparisons : List (List Int × Char)) (last : List Int × Char)
    (c : List Int) : List Char :=
  (comparisons.filter fun p => p.1 == c).map Prod.snd ++
    if last.1 = c then [last.2] else ['~']

/-- The characters appended for a group; `k - 1` is its number of symbols. -/
def groupChars (c : List Int) : List Char :=
  if c.length = 1 then elseIfChain comparisons1 c
  else if c.length = 2 then elseIfChain comparisons2 c
  else if c.length = 3 then elseIfChain comparisons3 c
  else if c.length = 4 then elseIfChain comparisons4 c
  else if c.length = 5 then elseIfChain comparisons5 c
  else if c.length = 6 then ifSequence comparisons6 comparison6Last c
  else if c.length = 7 then elseIfChain comparisons7 c
  else if c.length = 0 then []
  else ['~']

/-- The inner `while` loop: copy `a[i+k]` to `c[k-1]` up to a separator or the
terminator.  The first argument is the array from `a[i+k]` on. -/
def scanGroup : List Int → List Int → Option (List Int)
  | [], _ => none
  | x :: rest, c =>
      if x ≠ MORSE_ZIFU_KONG ∧ x ≠ MORSE_FINSH then
        if c.length < 7 then scanGroup rest (c ++ [x]) else none
      else some c

/-- Loop state: the index `i` and the array `code` with the index `j`. -/
structure Decoding where
  i : Nat
  code : WriteBuffer Char

/-- One iteration of the `for` loop, its increment included. -/
def decodeStep (a : List Int) (s : Decoding) : Option Decoding := do
  let x ← a[s.i]?
  if x = MORSE_START ∨ x = MORSE_ZIFU_KONG then
    let c ← scanGroup (a.drop (s.i + 1)) []
    let k := c.length + 1
    let code ← s.code.putAll (groupChars c)
    some { i := s.i + k - 1 + 1, code := code }
  else if x = MORSE_FINSH then
    some { s with i := 200 + 1 }
  else
    some { s with i := s.i + 1 }

/-- The `for` loop; `fuel` bounds the number of tests of its condition. -/
def decodeLoop (a : List Int) : Nat → Decoding → Option Decoding
  | 0, _ => none
  | fuel + 1, s =>
      if s.i < 200 then (decodeStep a s).bind fun s' => decodeLoop a fuel s'
      else some s

/-- `inverse_translate` on the array `a`: the final `code` and `j`.  Every
iteration advances `i`, so the loop condition is tested at most 201 times. -/
def inverseTranslate (a : List Int) : Option (WriteBuffer Char) :=
  (decodeLoop a 201 { i := 0, code := WriteBuffer.cleared '~' 31 }).map Decoding.code

/-! ## Groups -/

/-- The groups of an array that starts with `MORSE_START`: the symbols behind
it up to the first `MORSE_FINSH`, split at `MORSE_ZIFU_KONG`. -/
def groupsOf (a : List Int) : List (List Int) :=
  ((a.drop 1).takeWhile fun x => x != MORSE_FINSH).splitOn MORSE_ZIFU_KONG

/-- A symbol that neither separates groups nor ends the stream. -/
def InGroup (x : Int) : Prop :=
  x ≠ MORSE_ZIFU_KONG ∧ x ≠ MORSE_FINSH

/-- The symbols that open a group. -/
def Opens (sep : Int) : Prop :=
  sep = MORSE_START ∨ sep = MORSE_ZIFU_KONG

/-- A symbol that opens a group does not end the sequence. -/
theorem Opens.ne_finsh {sep : Int} (h : Opens sep) : sep ≠ MORSE_FINSH := by
  rcases h with rfl | rfl
  · decide
  · decide

/-- The scan copies a group up to the symbol that ends it. -/
theorem scanGroup_append {g c : List Int} (hg : ∀ x ∈ g, InGroup x)
    (hlen : c.length + g.length ≤ 7) {t : Int} (ht : ¬ InGroup t) (rest : List Int) :
    scanGroup (g ++ t :: rest) c = some (c ++ g) := by
  induction g generalizing c with
  | nil =>
      have ht' : ¬ (t ≠ MORSE_ZIFU_KONG ∧ t ≠ MORSE_FINSH) := ht
      rw [List.nil_append, scanGroup, if_neg ht', List.append_nil]
  | cons x g ih =>
      have hx : x ≠ MORSE_ZIFU_KONG ∧ x ≠ MORSE_FINSH := hg x List.mem_cons_self
      simp only [List.length_cons] at hlen
      have hc : c.length < 7 := by omega
      have hlen' : (c ++ [x]).length + g.length ≤ 7 := by
        simp only [List.length_append, List.length_singleton]
        omega
      rw [List.cons_append, scanGroup, if_pos hx, if_pos hc,
        ih (fun y hy => hg y (List.mem_cons_of_mem x hy)) hlen', List.append_assoc]
      rfl

/-- The rest of an array from an index on determines the symbol there. -/
private theorem getElem?_of_drop {a : List Int} {i : Nat} {x : Int} {rest : List Int}
    (h : a.drop i = x :: rest) : a[i]? = some x ∧ a.drop (i + 1) = rest := by
  constructor
  · have hhead : (a.drop i)[0]? = some x := by rw [h]; rfl
    simpa using hhead
  · rw [← List.tail_drop, h]
    rfl

/-- At a group, one iteration appends its characters and moves to its end. -/
theorem decodeStep_group {a : List Int} {s : Decoding} {sep t : Int} {g rest : List Int}
    (hsep : Opens sep)
    (hdrop : a.drop s.i = sep :: (g ++ t :: rest)) (hg : ∀ x ∈ g, InGroup x)
    (hlen : g.length ≤ 7) (ht : ¬ InGroup t) :
    decodeStep a s =
      (s.code.putAll (groupChars g)).map fun code =>
        { i := s.i + g.length + 1, code := code } := by
  rcases getElem?_of_drop hdrop with ⟨hget, hnext⟩
  have hscan : scanGroup (a.drop (s.i + 1)) [] = some g := by
    rw [hnext, scanGroup_append hg (by simpa using hlen) ht, List.nil_append]
  have hopens : sep = MORSE_START ∨ sep = MORSE_ZIFU_KONG := hsep
  simp only [decodeStep, hget, hopens, hscan, Option.bind_eq_bind, Option.bind_some, if_true]
  cases s.code.putAll (groupChars g) <;> rfl

/-- The array from the end of a group on. -/
theorem drop_group {a : List Int} {i : Nat} {sep t : Int} {g rest : List Int}
    (hdrop : a.drop i = sep :: (g ++ t :: rest)) :
    a.drop (i + g.length + 1) = t :: rest := by
  have hdd : a.drop (i + g.length + 1) = (a.drop i).drop (g.length + 1) := by
    rw [List.drop_drop]
    rfl
  rw [hdd, hdrop, List.drop_succ_cons, List.drop_left]

/-- An index with a symbol behind it lies inside the array. -/
theorem lt_of_drop {a : List Int} (ha : a.length = 200) {i : Nat} {x : Int} {rest : List Int}
    (h : a.drop i = x :: rest) : i < 200 := by
  have hlen := congrArg List.length h
  simp only [List.length_drop, List.length_cons] at hlen
  omega

/-- At a group, the loop appends its characters and continues at its end. -/
theorem decodeLoop_group {a : List Int} (ha : a.length = 200) {s : Decoding} {sep t : Int}
    {g rest : List Int} (hsep : Opens sep)
    (hdrop : a.drop s.i = sep :: (g ++ t :: rest)) (hg : ∀ x ∈ g, InGroup x)
    (hlen : g.length ≤ 7) (ht : ¬ InGroup t) (fuel : Nat) :
    decodeLoop a (fuel + 1) s =
      (s.code.putAll (groupChars g)).bind fun code =>
        decodeLoop a fuel { i := s.i + g.length + 1, code := code } := by
  rw [decodeLoop, if_pos (lt_of_drop ha hdrop), decodeStep_group hsep hdrop hg hlen ht]
  cases s.code.putAll (groupChars g) <;> rfl

/-- At the terminator the loop ends. -/
theorem decodeLoop_finsh {a : List Int} (ha : a.length = 200) {s : Decoding} {rest : List Int}
    {fuel : Nat} (hdrop : a.drop s.i = MORSE_FINSH :: rest) (hfuel : 2 ≤ fuel) :
    (decodeLoop a fuel s).map Decoding.code = some s.code := by
  obtain ⟨fuel, rfl⟩ : ∃ f, fuel = f + 2 := ⟨fuel - 2, by omega⟩
  rcases getElem?_of_drop hdrop with ⟨hget, -⟩
  have hstep : decodeStep a s = some { s with i := 201 } := by
    simp [decodeStep, hget, MORSE_FINSH, MORSE_START, MORSE_ZIFU_KONG]
  simp [decodeLoop, lt_of_drop ha hdrop, hstep]

/-- A separator stands between two groups. -/
theorem joinGroups_cons_cons (g g' : List Int) (gs : List (List Int)) :
    joinGroups (g :: g' :: gs) = g ++ MORSE_ZIFU_KONG :: joinGroups (g' :: gs) := by
  simp [joinGroups_cons]

/-- From a group start on, the loop appends the characters of all groups. -/
theorem decodeLoop_groups {a : List Int} (ha : a.length = 200) {gs : List (List Int)}
    (hne : gs ≠ []) (hgs : ∀ g ∈ gs, (∀ x ∈ g, InGroup x) ∧ g.length ≤ 7)
    {s : Decoding} {sep : Int} (hsep : Opens sep)
    {rest : List Int} (hdrop : a.drop s.i = sep :: (joinGroups gs ++ MORSE_FINSH :: rest))
    {fuel : Nat} (hfuel : 201 ≤ fuel + s.i) :
    (decodeLoop a fuel s).map Decoding.code = s.code.putAll (gs.flatMap groupChars) := by
  induction gs generalizing s sep fuel with
  | nil => exact absurd rfl hne
  | cons g gs ih =>
      rcases hgs g List.mem_cons_self with ⟨hg, hlen⟩
      have hi := lt_of_drop ha hdrop
      obtain ⟨fuel, rfl⟩ : ∃ f, fuel = f + 1 := ⟨fuel - 1, by omega⟩
      cases gs with
      | nil =>
          have hend : a.drop s.i = sep :: (g ++ MORSE_FINSH :: rest) := by
            simpa [joinGroups_cons] using hdrop
          have hfin := drop_group hend
          have hfini := lt_of_drop ha hfin
          rw [decodeLoop_group ha hsep hend hg hlen (fun h => h.2 rfl) fuel,
            List.flatMap_singleton]
          cases s.code.putAll (groupChars g) with
          | none => rfl
          | some code => exact decodeLoop_finsh ha hfin (by omega)
      | cons g' gs =>
          have hsplit : a.drop s.i = sep ::
              (g ++ MORSE_ZIFU_KONG :: (joinGroups (g' :: gs) ++ MORSE_FINSH :: rest)) := by
            rw [hdrop, joinGroups_cons_cons, List.append_assoc, List.cons_append]
          have hnext := drop_group hsplit
          rw [decodeLoop_group ha hsep hsplit hg hlen (fun h => h.1 rfl) fuel,
            List.flatMap_cons, WriteBuffer.putAll_append]
          cases s.code.putAll (groupChars g) with
          | none => rfl
          | some code =>
              exact ih (List.cons_ne_nil g' gs)
                (fun g'' hg'' => hgs g'' (List.mem_cons_of_mem g hg''))
                (Or.inr rfl) hnext (by simp only; omega)

/-- On an array that opens a group, the decoder appends the characters of its
groups. -/
theorem inverseTranslate_joinGroups {gs : List (List Int)} (hne : gs ≠ [])
    (hgs : ∀ g ∈ gs, (∀ x ∈ g, InGroup x) ∧ g.length ≤ 7) {a rest : List Int} {sep : Int}
    (hsep : Opens sep) (ha : a.length = 200)
    (hdrop : a = sep :: (joinGroups gs ++ MORSE_FINSH :: rest)) :
    inverseTranslate a = (WriteBuffer.cleared '~' 31).putAll (gs.flatMap groupChars) := by
  unfold inverseTranslate
  have hstart : a.drop 0 = sep :: (joinGroups gs ++ MORSE_FINSH :: rest) := hdrop
  rw [decodeLoop_groups ha hne hgs hsep hstart (Nat.le_refl 201)]

/-- The groups of an array that is `MORSE_START`, joined groups and the
terminator are these groups. -/
theorem groupsOf_eq {gs : List (List Int)} (hne : gs ≠ [])
    (hgs : ∀ g ∈ gs, ∀ x ∈ g, InGroup x) (rest : List Int) :
    groupsOf (MORSE_START :: (joinGroups gs ++ MORSE_FINSH :: rest)) = gs := by
  have hbody : ∀ x ∈ joinGroups gs, (x != MORSE_FINSH) = true := by
    intro x hx
    rcases List.exists_cons_of_ne_nil hne with ⟨g, gs', rfl⟩
    rw [joinGroups_cons, List.mem_append, List.mem_flatMap] at hx
    rw [bne_iff_ne]
    rcases hx with hx | ⟨g', hg', hx⟩
    · exact (hgs g List.mem_cons_self x hx).2
    · rcases List.mem_cons.mp hx with rfl | hx
      · decide
      · exact (hgs g' (List.mem_cons_of_mem g hg') x hx).2
  have htake : (joinGroups gs ++ MORSE_FINSH :: rest).takeWhile (fun x => x != MORSE_FINSH) =
      joinGroups gs := by
    rw [List.takeWhile_append_of_pos hbody]
    simp
  unfold groupsOf
  rw [List.drop_succ_cons, List.drop_zero, htake]
  exact List.splitOn_intercalate MORSE_ZIFU_KONG (fun g hg hmem => (hgs g hg _ hmem).1 rfl) hne

/-- A terminated array is its first symbol, its joined groups and the terminator. -/
theorem eq_joinGroups_groupsOf {a : List Int} {sep : Int} (hstart : a.head? = some sep)
    (hsep : sep ≠ MORSE_FINSH) (hfinsh : MORSE_FINSH ∈ a) :
    ∃ rest, a = sep :: (joinGroups (groupsOf a) ++ MORSE_FINSH :: rest) := by
  obtain ⟨body, rfl⟩ : ∃ body, a = sep :: body := by
    cases a with
    | nil => simp at hstart
    | cons x body => exact ⟨body, by simpa using hstart⟩
  have hmem : MORSE_FINSH ∈ body := by
    rcases List.mem_cons.mp hfinsh with h | h
    · exact absurd h.symm hsep
    · exact h
  have hjoin : joinGroups (groupsOf (sep :: body)) =
      body.takeWhile fun x => x != MORSE_FINSH :=
    List.intercalate_splitOn MORSE_ZIFU_KONG
  have hdrop : ∃ rest, body.dropWhile (fun x => x != MORSE_FINSH) = MORSE_FINSH :: rest := by
    cases hcase : body.dropWhile (fun x => x != MORSE_FINSH) with
    | nil =>
        rw [List.dropWhile_eq_nil_iff] at hcase
        exact absurd (hcase MORSE_FINSH hmem) (by simp)
    | cons x rest =>
        have hx := List.head?_dropWhile_not (fun x => x != MORSE_FINSH) body
        rw [hcase] at hx
        simp only [List.head?_cons, bne_eq_false_iff_eq] at hx
        exact ⟨rest, by rw [show x = MORSE_FINSH by simpa using hx]⟩
  rcases hdrop with ⟨rest, hrest⟩
  refine ⟨rest, ?_⟩
  rw [hjoin, ← hrest, List.takeWhile_append_dropWhile]

/-- The groups of an array contain neither separators nor the terminator. -/
theorem inGroup_of_mem_groupsOf {a g : List Int} (hg : g ∈ groupsOf a) :
    ∀ x ∈ g, InGroup x := by
  intro x hx
  rcases mem_of_mem_splitOn hg hx with ⟨hmem, hne⟩
  exact ⟨hne, by simpa using List.mem_takeWhile_imp hmem⟩

/-- There is always a group, if an empty one. -/
theorem groupsOf_ne_nil (a : List Int) : groupsOf a ≠ [] :=
  List.splitOn_ne_nil _ _

/-- On a terminated array that opens with a group of at most seven symbols, and
has no longer ones, the decoder appends the characters of its groups, in order. -/
theorem inverseTranslate_eq {a : List Int} (ha : a.length = 200) {sep : Int}
    (hstart : a.head? = some sep) (hsep : Opens sep) (hfinsh : MORSE_FINSH ∈ a)
    (hlen : ∀ g ∈ groupsOf a, g.length ≤ 7) :
    inverseTranslate a =
      (WriteBuffer.cleared '~' 31).putAll ((groupsOf a).flatMap groupChars) := by
  rcases eq_joinGroups_groupsOf hstart hsep.ne_finsh hfinsh with ⟨rest, hrest⟩
  exact inverseTranslate_joinGroups (groupsOf_ne_nil a)
    (fun g hg => ⟨inGroup_of_mem_groupsOf hg, hlen g hg⟩) hsep ha hrest

/-! ## Groups that do not fit in `c` -/

/-- The scan of a group of more than seven symbols leaves `c`. -/
theorem scanGroup_long {g c : List Int} (hg : ∀ x ∈ g, InGroup x) (hc : c.length ≤ 7)
    (hlong : 7 < c.length + g.length) (rest : List Int) :
    scanGroup (g ++ rest) c = none := by
  induction g generalizing c with
  | nil =>
      rw [List.length_nil] at hlong
      omega
  | cons x g ih =>
      have hx : x ≠ MORSE_ZIFU_KONG ∧ x ≠ MORSE_FINSH := hg x List.mem_cons_self
      rw [List.cons_append, scanGroup, if_pos hx]
      by_cases hfull : c.length < 7
      · rw [if_pos hfull]
        apply ih (fun y hy => hg y (List.mem_cons_of_mem x hy))
        · rw [List.length_append]
          exact hfull
        · simp only [List.length_append, List.length_cons, List.length_nil] at hlong ⊢
          omega
      · rw [if_neg hfull]

/-- From a group start on, a long group makes the loop leave `c`, unless it has
left `code` before. -/
theorem decodeLoop_long {a : List Int} (ha : a.length = 200) {gs : List (List Int)}
    (hgs : ∀ g ∈ gs, ∀ x ∈ g, InGroup x) (hlong : ∃ g ∈ gs, 7 < g.length) {s : Decoding}
    {sep : Int} (hsep : Opens sep) {rest : List Int}
    (hdrop : a.drop s.i = sep :: (joinGroups gs ++ MORSE_FINSH :: rest)) (fuel : Nat) :
    decodeLoop a fuel s = none := by
  induction gs generalizing s sep fuel with
  | nil =>
      rcases hlong with ⟨g, hg, -⟩
      exact absurd hg List.not_mem_nil
  | cons g gs ih =>
      have hg := hgs g List.mem_cons_self
      cases fuel with
      | zero => rfl
      | succ fuel =>
          by_cases hlen : g.length ≤ 7
          · cases gs with
            | nil =>
                rcases hlong with ⟨g', hg', hlong⟩
                rcases List.mem_singleton.mp hg' with rfl
                omega
            | cons g' gs =>
                have hsplit : a.drop s.i = sep ::
                    (g ++ MORSE_ZIFU_KONG :: (joinGroups (g' :: gs) ++ MORSE_FINSH :: rest)) := by
                  rw [hdrop, joinGroups_cons_cons, List.append_assoc, List.cons_append]
                have hlong' : ∃ g'' ∈ g' :: gs, 7 < g''.length := by
                  rcases hlong with ⟨g'', hg'', hlong⟩
                  rcases List.mem_cons.mp hg'' with rfl | hg''
                  · omega
                  · exact ⟨g'', hg'', hlong⟩
                have hnext := drop_group hsplit
                rw [decodeLoop_group ha hsep hsplit hg hlen (fun h => h.1 rfl) fuel]
                cases s.code.putAll (groupChars g) with
                | none => rfl
                | some code =>
                    exact ih (fun g'' hg'' => hgs g'' (List.mem_cons_of_mem g hg'')) hlong'
                      (Or.inr rfl) hnext fuel
          · have hscan : scanGroup (a.drop (s.i + 1)) [] = none := by
              rw [(getElem?_of_drop hdrop).2, joinGroups_cons, List.append_assoc]
              exact scanGroup_long hg (Nat.zero_le _) (by simpa using hlen) _
            have hopens : sep = MORSE_START ∨ sep = MORSE_ZIFU_KONG := hsep
            simp [decodeLoop, decodeStep, lt_of_drop ha hdrop, (getElem?_of_drop hdrop).1, hopens,
              hscan]

/-- On an opened and terminated array the decoder stays inside its arrays exactly
when no group is longer than `c` and the appended characters fit in `code`. -/
theorem inverseTranslate_isSome_iff {a : List Int} (ha : a.length = 200) {sep : Int}
    (hstart : a.head? = some sep) (hsep : Opens sep) (hfinsh : MORSE_FINSH ∈ a) :
    (inverseTranslate a).isSome ↔
      (∀ g ∈ groupsOf a, g.length ≤ 7) ∧ ((groupsOf a).flatMap groupChars).length ≤ 31 := by
  by_cases hlen : ∀ g ∈ groupsOf a, g.length ≤ 7
  · rw [inverseTranslate_eq ha hstart hsep hfinsh hlen, WriteBuffer.putAll_cleared]
    rw [and_iff_right hlen]
    by_cases hfits : ((groupsOf a).flatMap groupChars).length ≤ 31
    · rw [if_pos hfits]
      exact iff_of_true rfl hfits
    · rw [if_neg hfits]
      exact iff_of_false Bool.false_ne_true hfits
  · rcases eq_joinGroups_groupsOf hstart hsep.ne_finsh hfinsh with ⟨rest, hrest⟩
    have hlong : ∃ g ∈ groupsOf a, 7 < g.length := by simpa using hlen
    have hfirst : a.drop 0 = sep :: (joinGroups (groupsOf a) ++ MORSE_FINSH :: rest) := hrest
    have hnone : inverseTranslate a = none := by
      unfold inverseTranslate
      rw [decodeLoop_long ha (fun g hg => inGroup_of_mem_groupsOf hg) hlong hsep hfirst]
      rfl
    simp [hnone, hlen]

/-! ## One character per group -/

/-- The comparisons listed for groups of a given length. -/
def comparisons : Nat → List (List Int × Char)
  | 1 => comparisons1
  | 2 => comparisons2
  | 3 => comparisons3
  | 4 => comparisons4
  | 5 => comparisons5
  | 6 => comparisons6 ++ [comparison6Last]
  | 7 => comparisons7
  | _ => []

/-- The character of the first comparison that matches a group, `~` when no
comparison does. -/
def listedChar (g : List Int) : Char :=
  match (comparisons g.length).find? fun p => p.1 == g with
  | some p => p.2
  | none => '~'

/-- The groups of the six-symbol signs whose comparison has no `else`. -/
def unchainedSigns : List (List Int) :=
  comparisons6.map Prod.fst

/-- A chain of the length of the group appends the listed character. -/
theorem elseIfChain_eq (g : List Int) :
    elseIfChain (comparisons g.length) g = [listedChar g] := by
  unfold elseIfChain listedChar
  cases (comparisons g.length).find? fun p => p.1 == g <;> rfl

/-- The separate `if` statements append the listed character, and a `~` behind
it when one of them other than the last matched. -/
theorem ifSequence_eq {g : List Int} (hlen : g.length = 6) :
    ifSequence comparisons6 comparison6Last g =
      if g ∈ unchainedSigns then [listedChar g, '~'] else [listedChar g] := by
  have hsigns : ∀ g' ∈ unchainedSigns, g'.length = 6 ∧
      ifSequence comparisons6 comparison6Last g' = [listedChar g', '~'] := by
    decide
  by_cases hg : g ∈ unchainedSigns
  · rw [if_pos hg, (hsigns g hg).2]
  · have hnone : ∀ p ∈ comparisons6, ¬ p.1 = g := by
      intro p hp heq
      exact hg (List.mem_map.mpr ⟨p, hp, heq⟩)
    have hfilter : (comparisons6.filter fun p => p.1 == g) = [] := by
      simpa using hnone
    have hfind : (comparisons6.find? fun p => p.1 == g) = none := by
      simpa using hnone
    rw [if_neg hg]
    unfold ifSequence listedChar
    rw [hlen, comparisons, List.find?_append, hfind, hfilter]
    by_cases hlast : comparison6Last.1 = g <;> simp [hlast]

/-- The characters appended for a group: nothing for an empty group, the listed
character for a nonempty one, with a `~` behind it for an unchained sign. -/
theorem groupChars_eq (g : List Int) :
    groupChars g =
      if g = [] then []
      else if g ∈ unchainedSigns then [listedChar g, '~']
      else [listedChar g] := by
  have hsix : ∀ g' ∈ unchainedSigns, g'.length = 6 := by decide
  by_cases hg : g = []
  · rw [if_pos hg, hg]
    rfl
  rw [if_neg hg]
  have hpos : g.length ≠ 0 := fun h => hg (List.length_eq_zero_iff.mp h)
  by_cases h6 : g.length = 6
  · rw [← ifSequence_eq h6]
    simp [groupChars, h6]
  · have hmem : g ∉ unchainedSigns := fun h => h6 (hsix g h)
    have hchain := elseIfChain_eq g
    rw [if_neg hmem, ← hchain]
    unfold groupChars
    split_ifs with h1 h2 h3 h4 h5 h7
    · rw [h1]; rfl
    · rw [h2]; rfl
    · rw [h3]; rfl
    · rw [h4]; rfl
    · rw [h5]; rfl
    · rw [h7]; rfl
    · obtain ⟨n, hn⟩ : ∃ n, g.length = n + 8 := ⟨g.length - 8, by omega⟩
      simp [hn, comparisons, elseIfChain]

/-- The number of appended characters: one for each nonempty group and one more
for each unchained sign. -/
theorem length_flatMap_groupChars (gs : List (List Int)) :
    (gs.flatMap groupChars).length =
      (gs.filter fun g => g ≠ []).length + gs.countP fun g => g ∈ unchainedSigns := by
  have hnil : ([] : List Int) ∉ unchainedSigns := by decide
  induction gs with
  | nil => rfl
  | cons g gs ih =>
      rw [List.flatMap_cons, List.length_append, ih, groupChars_eq]
      by_cases hg : g = []
      · simp [hg, hnil]
      · have hkeep : ((g :: gs).filter fun g => g ≠ []) = g :: gs.filter fun g => g ≠ [] :=
          List.filter_cons_of_pos (by simpa using hg)
        rw [if_neg hg, hkeep, List.countP_cons]
        by_cases hsign : g ∈ unchainedSigns
        · simp only [hsign, decide_true, if_true, List.length_cons, List.length_nil]
          omega
        · simp only [hsign, decide_false, Bool.false_eq_true, if_false, List.length_cons,
            List.length_nil]
          omega

/-- Without unchained signs, every nonempty group appends its listed character. -/
theorem flatMap_groupChars_of_chained {gs : List (List Int)}
    (h : ∀ g ∈ gs, g ∉ unchainedSigns) :
    gs.flatMap groupChars = (gs.filter fun g => g ≠ []).map listedChar := by
  induction gs with
  | nil => rfl
  | cons g gs ih =>
      have hg' : g ∉ unchainedSigns := h g List.mem_cons_self
      rw [List.flatMap_cons, ih fun g' hg' => h g' (List.mem_cons_of_mem g hg'), groupChars_eq]
      by_cases hg : g = []
      · simp [hg]
      · simp [hg, hg']

/-- The decoder appends exactly the listed character of every nonempty group, in
group order, if and only if no group is the code of one of the eleven six-symbol
signs whose `if` has no `else`. -/
theorem inverseTranslate_one_per_group_iff {a : List Int} (ha : a.length = 200)
    (hstart : a.head? = some MORSE_START) (hfinsh : MORSE_FINSH ∈ a)
    (hcount : ((groupsOf a).filter fun g => g ≠ []).length ≤ 31)
    (hlen : ∀ g ∈ groupsOf a, g.length ≤ 7) :
    inverseTranslate a = some (WriteBuffer.holding '~' 31
        (((groupsOf a).filter fun g => g ≠ []).map listedChar)) ↔
      ∀ g ∈ groupsOf a, g ∉ unchainedSigns := by
  rw [inverseTranslate_eq ha hstart (Or.inl rfl) hfinsh hlen, WriteBuffer.putAll_cleared]
  constructor
  · intro h
    split_ifs at h with hfits
    have happended := WriteBuffer.holding_injective (Option.some.inj h)
    have hlength := length_flatMap_groupChars (groupsOf a)
    rw [happended, List.length_map] at hlength
    have hzero : ((groupsOf a).countP fun g => g ∈ unchainedSigns) = 0 := by omega
    simpa using hzero
  · intro h
    rw [flatMap_groupChars_of_chained h, List.length_map, if_pos hcount]

/-- The letters `A` and `E` and, as another word, a group that is no code. -/
theorem inverseTranslate_one_per_group_words :
    let a := [MORSE_START, MORSE_DIAN, MORSE_HUA, MORSE_ZIFU_KONG, MORSE_DIAN, MORSE_ZIFU_KONG,
      MORSE_CI_KONG, MORSE_ZIFU_KONG] ++ List.replicate 7 MORSE_DIAN ++
        List.replicate 185 MORSE_FINSH
    inverseTranslate a =
        some (WriteBuffer.holding '~' 31
          (((groupsOf a).filter fun g => g ≠ []).map listedChar)) ↔
      ∀ g ∈ groupsOf a, g ∉ unchainedSigns := by
  intro a
  exact inverseTranslate_one_per_group_iff (by decide +kernel) (by decide)
    (by decide) (by decide) (by decide)

/-- The code of a full stop on its own: one group of six symbols, for which the
decoder appends two characters. -/
theorem inverseTranslate_full_stop :
    let sign := [MORSE_DIAN, MORSE_HUA, MORSE_DIAN, MORSE_HUA, MORSE_DIAN, MORSE_HUA]
    let a := MORSE_START :: (sign ++ List.replicate 193 MORSE_FINSH)
    (a.length = 200 ∧ a.head? = some MORSE_START ∧ MORSE_START ∉ a.tail ∧ MORSE_FINSH ∈ a ∧
        groupsOf a = [sign]) ∧
      inverseTranslate a = some (WriteBuffer.holding '~' 31 ['.', '~']) ∧
      inverseTranslate a ≠ some (WriteBuffer.holding '~' 31
        (((groupsOf a).filter fun g => g ≠ []).map listedChar)) := by
  decide +kernel

end Ls2kMorse
