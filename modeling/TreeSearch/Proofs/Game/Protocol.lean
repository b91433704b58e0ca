import TreeSearch.Proofs.Game.Run

/-!
# The protocol of a game

What happens at the table, said without the loop that plays: a sequence of positions, one request at each of them, and
the rule that says how the game stops at the last one.

* `Table.Requested`: one request, with the answer, and with what both players remember before and after it.
* `Table.Conducted`: a game by the protocol, with its positions in a row and what the players remember at each.
* (one request) `play_of_requested`: the loop makes the request that the protocol asks for, and goes on as it says.
* (both ends of a game) `Conducted.cons`, `Conducted.tail`: a game by the protocol is a request answered with a move and
  then a game by the protocol.
* (every game) `play_eq_some_iff`: the loop plays exactly the games by the protocol, as far as its limit allows.
-/

namespace TreeSearch.Table

variable {σ μ ι κ : Type}

/-- A request of the protocol: the position is unfinished and is shown to the player of the side to move.  That player
answers from what it remembers and may then remember something else; the other one is not asked. -/
structure Requested (t : Table σ μ ι κ) (g : Game σ μ) (s : σ) (i : ι) (k : κ) (q : Request σ μ) (i' : ι)
    (k' : κ) : Prop where
  unfinished : g.terminal s = false
  side_eq : q.side = g.turn s
  position_eq : q.position = s
  plus : g.turn s = .plus → t.plus.choose s i = (q.answer, i') ∧ k' = k
  minus : g.turn s = .minus → t.minus.choose s k = (q.answer, k') ∧ i' = i

/-- A game by the protocol with the positions `position 0`, …, `position n`.  Before request number `j` the players
remember `plus j` and `minus j`. -/
structure Conducted (t : Table σ μ ι κ) (g : Game σ μ) (s₀ : σ) (i₀ : ι) (k₀ : κ) (r : Record σ μ ι κ) (n : Nat)
    (position : Nat → σ) (plus : Nat → ι) (minus : Nat → κ) : Prop where
  position_zero : position 0 = s₀
  plus_zero : plus 0 = i₀
  minus_zero : minus 0 = k₀
  /-- Request number `j` is made at position number `j`. -/
  requested : ∀ j q, r.requests[j]? = some q →
    t.Requested g (position j) (plus j) (minus j) q (plus (j + 1)) (minus (j + 1))
  /-- Before the last position every request is answered with a move, which leads to the next position. -/
  moved : ∀ j < n, ∃ q m, r.requests[j]? = some q ∧ q.answer = .ok (some m) ∧
    g.step (position j) m = .ok (position (j + 1))
  /-- At the last position a request is made only if it is unfinished, and none is made after it. -/
  length_requests : r.requests.length = if g.terminal (position n) then n else n + 1
  plus_eq : r.plus = plus r.requests.length
  minus_eq : r.minus = minus r.requests.length
  ok_iff : ∀ u, r.outcome = .ok u ↔ u = position n ∧
    (g.terminal (position n) = true ∨ ∃ q, r.requests[n]? = some q ∧ q.answer = .ok none)
  error_iff : ∀ e, r.outcome = .error e ↔ ∃ q, r.requests[n]? = some q ∧
    (q.answer = .error e ∨ ∃ m, q.answer = .ok (some m) ∧ g.step (position n) m = .error e)

variable {t : Table σ μ ι κ} {g : Game σ μ} {s next : σ} {i i' : ι} {k k' : κ} {q : Request σ μ} {m : μ}
  {r : Record σ μ ι κ} {n : Nat} {position : Nat → σ} {plus : Nat → ι} {minus : Nat → κ}

/-! ### One request -/

private theorem requested_ask (hs : g.terminal s = false) (i : ι) (k : κ) :
    t.Requested g s i k ⟨g.turn s, s, (t.ask (g.turn s) s i k).1⟩ (t.ask (g.turn s) s i k).2.1
      (t.ask (g.turn s) s i k).2.2 where
  unfinished := hs
  side_eq := rfl
  position_eq := rfl
  plus hturn := by rw [hturn]; exact ⟨rfl, rfl⟩
  minus hturn := by rw [hturn]; exact ⟨rfl, rfl⟩

private theorem Requested.ask_eq (h : t.Requested g s i k q i' k') : t.ask (g.turn s) s i k = (q.answer, i', k') := by
  cases hturn : g.turn s with
  | plus =>
    obtain ⟨hchoose, rfl⟩ := h.plus hturn
    rw [ask, hchoose]
  | minus =>
    obtain ⟨hchoose, rfl⟩ := h.minus hturn
    rw [ask, hchoose]

/-- What a request leads to. -/
theorem play_of_requested (h : t.Requested g s i k q i' k') (limit : Nat) :
    t.play g (limit + 1) s i k =
      match q.answer with
      | .error e => some { requests := [q], outcome := .error e, plus := i', minus := k' }
      | .ok none => some { requests := [q], outcome := .ok s, plus := i', minus := k' }
      | .ok (some m) =>
        match g.step s m with
        | .error e => some { requests := [q], outcome := .error e, plus := i', minus := k' }
        | .ok next => (t.play g limit next i' k').map fun r => { r with requests := q :: r.requests } := by
  have hs := h.unfinished
  have hask := h.ask_eq
  obtain ⟨side, shown, answer⟩ := q
  obtain rfl : side = g.turn s := h.side_eq
  obtain rfl : shown = s := h.position_eq
  rcases answer with e | move?
  · simp [play, hs, hask]
  · cases move? with
    | none => simp [play, hs, hask]
    | some m => cases hstep : g.step shown m <;> simp [play, hs, hask, hstep]

/-! ### The two ends of a game -/

private theorem conducted_of_terminal (hs : g.terminal s = true) (i : ι) (k : κ) :
    t.Conducted g s i k { outcome := .ok s, plus := i, minus := k } 0 (fun _ => s) (fun _ => i) (fun _ => k) where
  position_zero := rfl
  plus_zero := rfl
  minus_zero := rfl
  requested j q hq := by simp at hq
  moved j hj := absurd hj (Nat.not_lt_zero j)
  length_requests := by simp [hs]
  plus_eq := rfl
  minus_eq := rfl
  ok_iff u := by simp [hs, eq_comm]
  error_iff e := by simp

/-- A game that stops with the first request. -/
private theorem Requested.conducted (h : t.Requested g s i k q i' k') {outcome : Except Error σ}
    (hok : ∀ u, outcome = .ok u ↔ u = s ∧ q.answer = .ok none)
    (herror : ∀ e, outcome = .error e ↔ q.answer = .error e ∨ ∃ m, q.answer = .ok (some m) ∧ g.step s m = .error e) :
    t.Conducted g s i k { requests := [q], outcome, plus := i', minus := k' } 0 (fun _ => s)
      (startingWith i fun _ => i') (startingWith k fun _ => k') where
  position_zero := rfl
  plus_zero := rfl
  minus_zero := rfl
  requested j q' hq := by
    cases j with
    | zero =>
      obtain rfl : q = q' := by simpa using hq
      exact h
    | succ j => simp at hq
  moved j hj := absurd hj (Nat.not_lt_zero j)
  length_requests := by simp [h.unfinished]
  plus_eq := rfl
  minus_eq := rfl
  ok_iff u := by simp [hok, h.unfinished]
  error_iff e := by simp [herror]

/-- A request answered with a move comes before a game by the protocol. -/
theorem Conducted.cons (hq : t.Requested g s i k q i' k') (hm : q.answer = .ok (some m)) (hstep : g.step s m = .ok next)
    (h : t.Conducted g next i' k' r n position plus minus) :
    t.Conducted g s i k { r with requests := q :: r.requests } (n + 1) (startingWith s position) (startingWith i plus)
      (startingWith k minus) where
  position_zero := rfl
  plus_zero := rfl
  minus_zero := rfl
  requested j q' hq' := by
    cases j with
    | zero =>
      obtain rfl : q = q' := by simpa using hq'
      show t.Requested g s i k q (plus 0) (minus 0)
      rwa [h.plus_zero, h.minus_zero]
    | succ j => exact h.requested j q' (by simpa using hq')
  moved j hj := by
    cases j with
    | zero =>
      refine ⟨q, m, rfl, hm, ?_⟩
      show g.step s m = .ok (position 0)
      rw [h.position_zero, hstep]
    | succ j => exact h.moved j (Nat.lt_of_succ_lt_succ hj)
  length_requests := by
    show r.requests.length + 1 = if g.terminal (position n) then n + 1 else n + 1 + 1
    rw [h.length_requests]
    split <;> rfl
  plus_eq := h.plus_eq
  minus_eq := h.minus_eq
  ok_iff := h.ok_iff
  error_iff := h.error_iff

/-- The first request of a longer game by the protocol, and the game after it. -/
theorem Conducted.tail (h : t.Conducted g s i k r (n + 1) position plus minus) :
    ∃ q m rest, r.requests = q :: rest ∧ t.Requested g s i k q (plus 1) (minus 1) ∧ q.answer = .ok (some m) ∧
      g.step s m = .ok (position 1) ∧
      t.Conducted g (position 1) (plus 1) (minus 1) { r with requests := rest } n (fun j => position (j + 1))
        (fun j => plus (j + 1)) (fun j => minus (j + 1)) := by
  obtain ⟨q, m, hq, hm, hstep⟩ := h.moved 0 (Nat.succ_pos n)
  have hfirst := h.requested 0 q hq
  rw [h.position_zero, h.plus_zero, h.minus_zero] at hfirst
  rw [h.position_zero] at hstep
  obtain ⟨rest, hrest⟩ : ∃ rest, r.requests = q :: rest := by
    cases hr : r.requests with
    | nil => simp [hr] at hq
    | cons q' rest => exact ⟨rest, by simpa [hr] using hq⟩
  have hget (j : Nat) : r.requests[j + 1]? = rest[j]? := by simp [hrest]
  have hlength : r.requests.length = rest.length + 1 := by simp [hrest]
  refine ⟨q, m, rest, hrest, hfirst, hm, hstep, ?_⟩
  constructor
  case position_zero => rfl
  case plus_zero => rfl
  case minus_zero => rfl
  case requested =>
    intro j q' hq'
    exact h.requested (j + 1) q' ((hget j).trans hq')
  case moved =>
    intro j hj
    rw [← hget j]
    exact h.moved (j + 1) (Nat.succ_lt_succ hj)
  case length_requests =>
    have := h.length_requests
    rw [hlength] at this
    show rest.length = _
    split at this <;> rename_i hs <;> simp only [hs] <;> simp <;> omega
  case plus_eq => rw [← hlength]; exact h.plus_eq
  case minus_eq => rw [← hlength]; exact h.minus_eq
  case ok_iff => intro u; rw [← hget n]; exact h.ok_iff u
  case error_iff => intro e; rw [← hget n]; exact h.error_iff e

/-! ### Every game -/

/-- The loop keeps to the protocol. -/
theorem conducted_of_play {limit : Nat} (h : t.play g limit s i k = some r) :
    r.requests.length ≤ limit ∧ ∃ n position plus minus, t.Conducted g s i k r n position plus minus := by
  induction limit generalizing s i k r with
  | zero =>
    rw [play] at h
    split at h
    · rename_i hs
      obtain rfl := Option.some.inj h
      exact ⟨Nat.le_refl 0, _, _, _, _, conducted_of_terminal hs i k⟩
    · cases h
  | succ limit ih =>
    cases hs : g.terminal s with
    | true =>
      rw [play_of_terminal hs] at h
      obtain rfl := Option.some.inj h
      exact ⟨Nat.zero_le _, _, _, _, _, conducted_of_terminal hs i k⟩
    | false =>
      have hone : 1 ≤ limit + 1 := Nat.le_add_left 1 limit
      have hq := requested_ask (t := t) hs i k
      generalize (⟨g.turn s, s, (t.ask (g.turn s) s i k).1⟩ : Request σ μ) = q at hq
      rw [play_of_requested hq] at h
      split at h
      · -- the request failed
        rename_i e he
        obtain rfl := Option.some.inj h
        exact ⟨hone, _, _, _, _, hq.conducted (by simp [he]) (by simp [he])⟩
      · -- the player has nothing to play
        rename_i hnone
        obtain rfl := Option.some.inj h
        exact ⟨hone, _, _, _, _, hq.conducted (by simp [hnone, eq_comm]) (by simp [hnone])⟩
      · rename_i m hm
        split at h
        · -- the game refuses the move
          rename_i e he
          obtain rfl := Option.some.inj h
          exact ⟨hone, _, _, _, _, hq.conducted (by simp [hm]) (by simp [hm, he])⟩
        · rename_i next hstep
          obtain ⟨rest, hrest, rfl⟩ := Option.map_eq_some_iff.mp h
          obtain ⟨hlength, n, position, plus, minus, hconducted⟩ := ih hrest
          exact ⟨Nat.succ_le_succ hlength, _, _, _, _, hconducted.cons hq hm hstep⟩

/-- A game of the protocol that stops at its first position is played by the loop. -/
private theorem Conducted.play_zero (h : t.Conducted g s i k r 0 position plus minus) {limit : Nat}
    (hl : r.requests.length ≤ limit) : t.play g limit s i k = some r := by
  obtain ⟨hposition, hplus₀, hminus₀, hrequested, -, hlength, hplus, hminus, hok, herror⟩ := h
  rw [hposition] at hlength
  simp only [hposition] at hok herror
  cases hs : g.terminal s with
  | true =>
    obtain hnil : r.requests = [] := by simpa [hs] using hlength
    have hout : r.outcome = .ok s := (hok s).mpr ⟨rfl, Or.inl hs⟩
    have hi : r.plus = i := by rw [hplus, hnil]; exact hplus₀
    have hk : r.minus = k := by rw [hminus, hnil]; exact hminus₀
    have hr : r = { requests := [], outcome := .ok s, plus := i, minus := k } := by rw [← hnil, ← hout, ← hi, ← hk]
    rw [play_of_terminal hs, hr]
  | false =>
    obtain ⟨q, hq⟩ : ∃ q, r.requests = [q] := List.length_eq_one_iff.mp (by simpa [hs] using hlength)
    obtain ⟨limit, rfl⟩ : ∃ l, limit = l + 1 := Nat.exists_eq_add_of_le' (by simpa [hq] using hl)
    have hfirst := hrequested 0 q (by rw [hq]; rfl)
    rw [hposition, hplus₀, hminus₀] at hfirst
    rw [hq] at hok herror
    have hi : r.plus = plus 1 := by rw [hplus, hq]; rfl
    have hk : r.minus = minus 1 := by rw [hminus, hq]; rfl
    have hr : ∀ o, r.outcome = o → r = { requests := [q], outcome := o, plus := plus 1, minus := minus 1 } := by
      rintro o rfl
      rw [← hq, ← hi, ← hk]
    have hok' : ∀ u, r.outcome = .ok u ↔ u = s ∧ q.answer = .ok none := by simpa [hs] using hok
    have herror' : ∀ e, r.outcome = .error e ↔
        q.answer = .error e ∨ ∃ m, q.answer = .ok (some m) ∧ g.step s m = .error e := by simpa using herror
    rw [play_of_requested hfirst]
    split
    · rename_i e he
      rw [hr _ ((herror' e).mpr (Or.inl he))]
    · rename_i hnone
      rw [hr _ ((hok' s).mpr ⟨rfl, hnone⟩)]
    · rename_i m hm
      split
      · rename_i e he
        rw [hr _ ((herror' e).mpr (Or.inr ⟨m, hm, he⟩))]
      · -- an accepted move does not stop the game, so no outcome is left
        rename_i next hstep
        cases hout : r.outcome with
        | ok u => simp [((hok' u).mp hout).2] at hm
        | error e =>
          rcases (herror' e).mp hout with he | ⟨m', hm', he⟩
          · simp [he] at hm
          · obtain rfl : m = m' := by simpa [hm] using hm'
            rw [hstep] at he
            cases he

/-- Every game of the protocol is played by the loop. -/
private theorem Conducted.play_eq (h : t.Conducted g s i k r n position plus minus) {limit : Nat}
    (hl : r.requests.length ≤ limit) : t.play g limit s i k = some r := by
  induction n generalizing s i k r position plus minus limit with
  | zero => exact h.play_zero hl
  | succ n ih =>
    obtain ⟨q, m, rest, hrest, hq, hm, hstep, htail⟩ := h.tail
    have hlength : rest.length + 1 ≤ limit := by simpa [hrest] using hl
    obtain ⟨limit, rfl⟩ := Nat.exists_eq_add_of_le' (Nat.le_trans (Nat.succ_pos rest.length) hlength)
    rw [play_of_requested hq]
    simp only [hm, hstep]
    rw [ih htail (Nat.le_of_succ_le_succ hlength), Option.map_some, ← hrest]

/-- The loop ends with a record iff it is the record of a game by the protocol, and the limit leaves room for its
requests. -/
theorem play_eq_some_iff (t : Table σ μ ι κ) (g : Game σ μ) (limit : Nat) (s₀ : σ) (i₀ : ι) (k₀ : κ)
    (r : Record σ μ ι κ) :
    t.play g limit s₀ i₀ k₀ = some r ↔
      r.requests.length ≤ limit ∧ ∃ n position plus minus, t.Conducted g s₀ i₀ k₀ r n position plus minus :=
  ⟨conducted_of_play, fun ⟨hl, _, _, _, _, h⟩ => h.play_eq hl⟩

end TreeSearch.Table
