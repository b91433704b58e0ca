import Mathlib.Data.List.Nodup
import Mathlib.Data.Set.Card
import TreeSearch.Game.Line

/-!
# Lines of play as words

A line of play is written as a word of numbers: each letter is the place of a move in the list of legal moves of the
position that it is played in.  So a move that is listed twice makes two lines.

* `Game.follow s word`: the position at the end of the line, if there is such a line.  All positions before the last
  move are unfinished, and the game accepts every move.
* (levels) `mem_after`: the positions after `k` moves are those at the end of the words of `k` letters.
* (all words) `Game.words depth s` lists the words of at most `depth` letters, each once (`mem_words`, `nodup_words`),
  so there are as many of them as `encard_words` says.
-/

namespace TreeSearch.Game

variable {σ μ : Type} {g : Game σ μ} {s t u : σ} {m : μ} {i depth : Nat} {word : List Nat}

/-- The position at the end of a line of play. -/
def follow (g : Game σ μ) : σ → List Nat → Option σ
  | s, [] => some s
  | s, i :: word =>
    if g.terminal s then none
    else ((g.moves s)[i]?).bind fun m => (g.step s m).toOption.bind fun t => g.follow t word

/-- The lines of at most `depth` moves. -/
def words (g : Game σ μ) : Nat → σ → List (List Nat)
  | 0, _ => [[]]
  | depth + 1, s =>
    [] :: if g.terminal s then []
      else (g.moves s).zipIdx.flatMap fun entry =>
        ((g.step s entry.1).toOption.elim [] (g.words depth)).map (entry.2 :: ·)

/-! ### The first move of a line -/

theorem follow_cons_eq_some_iff :
    g.follow s (i :: word) = some u ↔
      g.terminal s = false ∧ ∃ m t, (g.moves s)[i]? = some m ∧ g.step s m = .ok t ∧ g.follow t word = some u := by
  rw [follow]
  cases g.terminal s with
  | true => simp
  | false => simp [Option.bind_eq_some_iff, toOption_eq_some_iff]

/-- The positions after `k` moves are those at the end of the words of `k` letters. -/
theorem mem_after {k : Nat} : t ∈ g.after k s ↔ ∃ word, word.length = k ∧ g.follow s word = some t := by
  induction k generalizing s with
  | zero =>
    constructor
    · intro h
      exact ⟨[], rfl, congrArg some (List.mem_singleton.mp h).symm⟩
    · rintro ⟨word, hlen, h⟩
      obtain rfl := List.length_eq_zero_iff.mp hlen
      exact List.mem_singleton.mpr (Option.some.inj h).symm
  | succ k ih =>
    rw [after, List.mem_flatMap]
    constructor
    · rintro ⟨u, hu, ht⟩
      obtain ⟨hs, m, hm, hstep⟩ := mem_children.mp hu
      obtain ⟨i, hi⟩ := List.mem_iff_getElem?.mp hm
      obtain ⟨word, hlen, hword⟩ := ih.mp ht
      exact ⟨i :: word, by rw [List.length_cons, hlen], follow_cons_eq_some_iff.mpr ⟨hs, m, u, hi, hstep, hword⟩⟩
    · rintro ⟨word, hlen, h⟩
      cases word with
      | nil => cases hlen
      | cons i word =>
        obtain ⟨hs, m, u, hi, hstep, hword⟩ := follow_cons_eq_some_iff.mp h
        have hu : u ∈ g.children s := mem_children.mpr ⟨hs, m, List.mem_of_getElem? hi, hstep⟩
        exact ⟨u, hu, ih.mpr ⟨word, Nat.succ.inj hlen, hword⟩⟩

/-! ### Listing the words -/

theorem mem_words : word ∈ g.words depth s ↔ word.length ≤ depth ∧ (g.follow s word).isSome = true := by
  induction depth generalizing s word with
  | zero =>
    rw [words, List.mem_singleton, Nat.le_zero, List.length_eq_zero_iff]
    constructor
    · rintro rfl
      exact ⟨rfl, rfl⟩
    · exact And.left
  | succ depth ih =>
    cases word with
    | nil => simp [words, follow]
    | cons i word =>
      -- both sides ask for the first move and leave the rest of the word to the position after it
      rw [Option.isSome_iff_exists]
      simp only [follow_cons_eq_some_iff, words, List.mem_cons, reduceCtorEq, false_or, List.length_cons,
        Nat.succ_le_succ_iff]
      cases hs : g.terminal s with
      | true => simp
      | false =>
        simp only [Bool.false_eq_true, if_false, List.mem_flatMap, List.mem_zipIdx_iff_getElem?, List.mem_map,
          List.cons.injEq, true_and]
        constructor
        · rintro ⟨⟨m, j⟩, hm, word', hword', rfl, rfl⟩
          cases hstep : g.step s m with
          | error err => rw [hstep] at hword'; cases hword'
          | ok t =>
            rw [hstep] at hword'
            obtain ⟨hlen, hsome⟩ := ih.mp hword'
            obtain ⟨u, hu⟩ := Option.isSome_iff_exists.mp hsome
            exact ⟨hlen, u, m, t, hm, hstep, hu⟩
        · rintro ⟨hlen, u, m, t, hm, hstep, hu⟩
          refine ⟨(m, i), hm, word, ?_, rfl, rfl⟩
          rw [hstep]
          exact ih.mpr ⟨hlen, Option.isSome_iff_exists.mpr ⟨u, hu⟩⟩

theorem nodup_words (g : Game σ μ) (depth : Nat) (s : σ) : (g.words depth s).Nodup := by
  induction depth generalizing s with
  | zero => exact List.nodup_singleton []
  | succ depth ih =>
    rw [words, List.nodup_cons]
    refine ⟨by split <;> simp, ?_⟩
    split
    · exact List.nodup_nil
    · rw [List.nodup_flatMap]
      constructor
      · intro entry _
        refine List.Nodup.map (fun _ _ h => (List.cons.inj h).2) ?_
        cases (g.step s entry.1).toOption with
        | none => exact List.nodup_nil
        | some t => exact ih t
      · -- words with different first letters differ
        have hplaces : ((g.moves s).zipIdx.map Prod.snd).Nodup := by
          rw [List.zipIdx_map_snd]
          exact List.nodup_range'
        refine (List.pairwise_map.mp hplaces).imp fun {a b} hab => ?_
        rw [Function.onFun, List.disjoint_left]
        intro word ha hb
        obtain ⟨_, -, rfl⟩ := List.mem_map.mp ha
        obtain ⟨_, -, hcons⟩ := List.mem_map.mp hb
        exact hab (List.cons.inj hcons).1.symm

/-- The empty word comes first. -/
private theorem words_eq_cons (g : Game σ μ) (depth : Nat) (s : σ) :
    g.words depth s = [] :: (g.words depth s).tail := by
  cases depth <;> rfl

/-- The lines with at least one move, counted. -/
theorem encard_words (g : Game σ μ) (depth : Nat) (s : σ) :
    {word | word ≠ [] ∧ word.length ≤ depth ∧ (g.follow s word).isSome = true}.encard =
      (g.words depth s).tail.length := by
  have hnodup := g.nodup_words depth s
  rw [words_eq_cons, List.nodup_cons] at hnodup
  have hset : {word | word ≠ [] ∧ word.length ≤ depth ∧ (g.follow s word).isSome = true} =
      ((g.words depth s).tail.toFinset : Set (List Nat)) := by
    ext word
    show word ≠ [] ∧ _ ↔ _
    rw [← mem_words, words_eq_cons, List.mem_cons, Finset.mem_coe, List.mem_toFinset]
    constructor
    · rintro ⟨hne, rfl | h⟩
      · exact absurd rfl hne
      · exact h
    · intro h
      exact ⟨fun hnil => hnodup.1 (hnil ▸ h), Or.inr h⟩
  rw [hset, Set.encard_coe_eq_coe_finsetCard, List.toFinset_card_of_nodup hnodup.2]

/-- A sum over the children is a sum over the moves, to which a refused move adds nothing. -/
theorem sum_map_children {M : Type} [Zero M] [Add M] (hzero : ∀ x : M, 0 + x = x) (g : Game σ μ) (s : σ) (f : σ → M) :
    ((g.children s).map f).sum =
      if g.terminal s then 0 else ((g.moves s).map fun m => (g.step s m).toOption.elim 0 f).sum := by
  rw [children]
  split
  · rfl
  · induction g.moves s with
    | nil => rfl
    | cons m ms ih =>
      rw [List.map_cons, List.sum_cons, ← ih]
      cases h : (g.step s m).toOption with
      | none => rw [List.filterMap_cons_none (f := fun m => (g.step s m).toOption) h, Option.elim_none, hzero]
      | some t => rw [List.filterMap_cons_some (f := fun m => (g.step s m).toOption) h, List.map_cons, List.sum_cons,
          Option.elim_some]

theorem length_words_succ (g : Game σ μ) (depth : Nat) (s : σ) :
    (g.words (depth + 1) s).length = 1 + ((g.children s).map fun t => (g.words depth t).length).sum := by
  rw [sum_map_children Nat.zero_add, words, List.length_cons, Nat.add_comm]
  split
  · rfl
  · rw [List.length_flatMap]
    conv => rhs; rw [← List.zipIdx_map_fst 0 (g.moves s), List.map_map]
    congr 3
    funext entry
    rw [List.length_map, Function.comp]
    cases (g.step s entry.1).toOption <;> rfl

end TreeSearch.Game
