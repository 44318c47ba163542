import Lispette.Proofs.Contract

/-!
# Repetition in rounds

A repetition runs its item in rounds. A round is a match that consumes something, and the next one
begins where it ended. After the rounds the repetition ends in one of four ways: nothing is left to
read, the item does not match, it matches once more but consumes nothing, or it recovers from an
error, which then is what the whole comes to. Every round takes at least a byte, so the item is run
at most once for each byte that is left and once more.
-/

namespace Lispette

namespace Reply

variable {α : Type}

theorem map_nil_append (reply : Reply (List α)) : reply.map ([] ++ ·) = reply := by
  cases reply <;> rfl

theorem map_append_cons (reply : Reply (List α)) (a : α) (items : List α) :
    (reply.map (items ++ ·)).map (a :: ·) = reply.map (a :: items ++ ·) := by
  cases reply <;> rfl

end Reply

namespace Parser

variable {α : Type} {p : Parser α} {s t u : Cursor} {a : α}

/-! ## Rounds and endings -/

/-- Consecutive matches, each of which begins where the one before it ended and consumes
something. -/
inductive Rounds (p : Parser α) : Cursor → List Cursor → List α → Cursor → Prop where
  | nil {s : Cursor} : Rounds p s [] [] s
  | cons {s t u : Cursor} {a : α} {starts : List Cursor} {items : List α} :
    p.Matches s a t → s.offset < t.offset → Rounds p t starts items u →
      Rounds p s (s :: starts) (a :: items) u

/-- How a repetition ends where its rounds have led. It may run its item once more; this gives the
reply, to which the items of the rounds are still to be added, and the cursor. -/
inductive Ending (p : Parser α) (s : Cursor) : List Cursor → Reply (List α) → Cursor → Prop where
  | atEnd : s.atEnd = true → Ending p s [] (.matched []) s
  | rejected : s.atEnd = false → p.Rejects s → Ending p s [s] (.matched []) s
  | idle {a : α} {t : Cursor} : s.atEnd = false → p.Matches s a t → t.offset = s.offset →
    Ending p s [s] (.matched [a]) t
  | recovered {e : SyntaxError} {t : Cursor} : s.atEnd = false → p.Recovers s e t →
    Ending p s [s] (.recovered e) t

/-- The parser keeps the contract wherever it is run in the source. -/
def KeepsContract (source : String) (p : Parser α) : Prop :=
  ∀ s, s.Reachable source → Contract source s (p.run s)

variable {source : String} {starts last : List Cursor} {items : List α} {reply : Reply (List α)}

theorem KeepsContract.matched (hp : KeepsContract source p) (hs : s.Reachable source)
    (h : p.Matches s a t) : t.Reachable source ∧ s.offset ≤ t.offset := by
  have hcontract := hp s hs
  rw [Contract, h.1, h.2] at hcontract
  exact ⟨hcontract.1.reachable, hcontract.2.1⟩

/-- A single character, to which the parser is committed. -/
theorem keepsContract_committed (ok : Char → Bool) (message : String) :
    KeepsContract source (here >>= fun start ↦ (satisfy ok).orFail start message) := by
  intro s hs
  rcases outcome (here >>= fun start ↦ (satisfy ok).orFail start message) s with
    ⟨c, t, h⟩ | h | ⟨e, t, h⟩
  · obtain ⟨-, -, ht⟩ := matches_satisfy.1 (matches_orFail.1 (matches_sequence.1 h))
    rw [Contract, h.1, h.2, ht]
    exact ⟨hs.advance.standsIn, s.offset_le_advance, s.errors_advance⟩
  · exact absurd (rejects_sequence.1 h) not_rejects_orFail
  · rcases recovers_orFail (recovers_sequence.1 h) with hbroken | ⟨he, ht⟩
    · exact absurd hbroken not_recovers_satisfy
    · rw [Cursor.synchronize_withError] at ht
      have hbroken : Broken s s e t := ⟨s, s, message, .refl s, .refl s, .refl s, he, ht⟩
      rw [Contract, h.1, h.2]
      exact hbroken.contract hs.standsIn

theorem Rounds.reachable (h : Rounds p s starts items t) (hp : KeepsContract source p)
    (hs : s.Reachable source) : t.Reachable source := by
  induction h with
  | nil => exact hs
  | cons hmatch _ _ ih => exact ih (hp.matched hs hmatch).1

/-- A round takes at least a byte. -/
theorem Rounds.length_add_offset_le (h : Rounds p s starts items t) :
    starts.length + s.offset ≤ t.offset := by
  induction h with
  | nil => exact Nat.le_of_eq (Nat.zero_add _)
  | cons _ hlt _ ih =>
    rw [List.length_cons]
    omega

/-- A repetition goes on where its rounds have led. -/
theorem Rounds.run_many (h : Rounds p s starts items t) (hp : KeepsContract source p)
    (hs : s.Reachable source) :
    (many p).run s =
      ⟨((many p).run t).reply.map (items ++ ·), ((many p).run t).cursor,
        (starts.flatMap fun c ↦ (p.run c).events) ++ ((many p).run t).events⟩ := by
  induction h with
  | nil => rw [Reply.map_nil_append, List.flatMap_nil, List.nil_append]
  | @cons s t u a starts items hmatch hlt hrounds ih =>
    have ht := (hp.matched hs hmatch).1
    have hless := (hs.standsIn.remaining_lt_iff ht.standsIn).2 hlt
    have hend := Cursor.atEnd_of_remaining_lt hless
    rw [run_many_of_matches hend hmatch, if_pos hless, ih ht, Reply.map_append_cons,
      List.flatMap_cons, List.append_assoc]

theorem Ending.run_many (h : Ending p s last reply t) (hp : KeepsContract source p)
    (hs : s.Reachable source) :
    (many p).run s = ⟨reply, t, last.flatMap fun c ↦ (p.run c).events⟩ := by
  cases h with
  | atEnd hend => exact run_many_of_atEnd hend
  | rejected hend hno => rw [run_many_of_rejects hend hno, List.flatMap_singleton]
  | idle hend hmatch hidle =>
    have ht := (hp.matched hs hmatch).1
    have hless := mt (hs.standsIn.remaining_lt_iff ht.standsIn).1 (by omega)
    rw [run_many_of_matches hend hmatch, if_neg hless, List.flatMap_singleton]
  | recovered hend hbroken => rw [run_many_of_recovers hend hbroken, List.flatMap_singleton]

/-- The rounds lead on until one of the endings is met. -/
theorem exists_rounds (hp : KeepsContract source p) (hs : s.Reachable source) :
    ∃ starts items t last reply u, Rounds p s starts items t ∧ Ending p t last reply u := by
  -- A match either consumes something, which leaves fewer bytes for the later rounds, or is idle.
  induction hbytes : s.remaining using Nat.strongRecOn generalizing s with
  | ind bytes ih =>
    cases hend : s.atEnd with
    | true => exact ⟨[], [], s, _, _, _, .nil, .atEnd hend⟩
    | false =>
      rcases p.outcome s with ⟨a, t, hmatch⟩ | hno | ⟨e, t, hbroken⟩
      · obtain ⟨ht, hle⟩ := hp.matched hs hmatch
        rcases Nat.lt_or_eq_of_le hle with hlt | heq
        · have hless := (hs.standsIn.remaining_lt_iff ht.standsIn).2 hlt
          obtain ⟨starts, items, u, last, reply, v, hrounds, hending⟩ :=
            ih t.remaining (hbytes ▸ hless) ht rfl
          exact ⟨_, _, u, last, reply, v, .cons hmatch hlt hrounds, hending⟩
        · exact ⟨[], [], s, _, _, _, .nil, .idle hend hmatch heq.symm⟩
      · exact ⟨[], [], s, _, _, _, .nil, .rejected hend hno⟩
      · exact ⟨[], [], s, _, _, _, .nil, .recovered hend hbroken⟩

theorem Rounds.run_many_of_ending (h : Rounds p s starts items t)
    (hending : Ending p t last reply u) (hp : KeepsContract source p) (hs : s.Reachable source) :
    (many p).run s =
      ⟨reply.map (items ++ ·), u, (starts ++ last).flatMap fun c ↦ (p.run c).events⟩ := by
  rw [h.run_many hp hs, hending.run_many hp (h.reachable hp hs), List.flatMap_append]

/-- Whatever a repetition comes to, it comes to by rounds and an ending. -/
theorem outcome_many_iff (hp : KeepsContract source p) (hs : s.Reachable source) :
    ((many p).run s).reply = reply ∧ ((many p).run s).cursor = u ↔
      ∃ starts items t last added, Rounds p s starts items t ∧ Ending p t last added u ∧
        added.map (items ++ ·) = reply := by
  constructor
  · intro houtcome
    obtain ⟨starts, items, t, last, added, v, hrounds, hending⟩ := exists_rounds hp hs
    rw [hrounds.run_many_of_ending hending hp hs] at houtcome
    obtain ⟨hreply, rfl⟩ := houtcome
    exact ⟨starts, items, t, last, added, hrounds, hending, hreply⟩
  · rintro ⟨starts, items, t, last, added, hrounds, hending, rfl⟩
    rw [hrounds.run_many_of_ending hending hp hs]
    exact ⟨rfl, rfl⟩

theorem matches_many_iff (hp : KeepsContract source p) (hs : s.Reachable source) :
    (many p).Matches s items t ↔
      (∃ starts, Rounds p s starts items t ∧ (t.atEnd = true ∨ p.Rejects t)) ∨
      ∃ starts before u a, Rounds p s starts before u ∧ u.atEnd = false ∧ p.Matches u a t ∧
        t.offset = u.offset ∧ items = before ++ [a] := by
  refine (outcome_many_iff hp hs).trans ?_
  constructor
  · rintro ⟨starts, before, u, last, added, hrounds, hending, hreply⟩
    cases hending with
    -- Without a last item, the items are those of the rounds.
    | atEnd hend =>
      obtain rfl : before = items := by simpa [Reply.map] using hreply
      exact .inl ⟨starts, hrounds, .inl hend⟩
    | rejected _ hno =>
      obtain rfl : before = items := by simpa [Reply.map] using hreply
      exact .inl ⟨starts, hrounds, .inr hno⟩
    | @idle a _ hend hmatch hidle =>
      have hitems := (Reply.matched.inj hreply).symm
      exact .inr ⟨starts, before, u, a, hrounds, hend, hmatch, hidle, hitems⟩
    | recovered => cases hreply
  · rintro (⟨starts, hrounds, hstop⟩ | ⟨starts, before, u, a, hrounds, hend, hmatch, hidle, rfl⟩)
    · have hreply : (Reply.matched []).map (items ++ ·) = .matched items := by simp [Reply.map]
      cases hend : t.atEnd with
      | true => exact ⟨starts, items, t, _, _, hrounds, .atEnd hend, hreply⟩
      | false =>
        have hno := hstop.resolve_left (by simp [hend])
        exact ⟨starts, items, t, _, _, hrounds, .rejected hend hno, hreply⟩
    · exact ⟨starts, before, u, _, _, hrounds, .idle hend hmatch hidle, rfl⟩

theorem recovers_many_iff {e : SyntaxError} (hp : KeepsContract source p)
    (hs : s.Reachable source) :
    (many p).Recovers s e t ↔
      ∃ starts items u, Rounds p s starts items u ∧ u.atEnd = false ∧ p.Recovers u e t := by
  refine (outcome_many_iff hp hs).trans ?_
  constructor
  · rintro ⟨starts, items, u, last, added, hrounds, hending, hreply⟩
    cases hending with
    | recovered hend hbroken =>
      obtain rfl := Reply.recovered.inj hreply
      exact ⟨starts, items, u, hrounds, hend, hbroken⟩
    | _ => cases hreply
  · rintro ⟨starts, items, u, hrounds, hend, hbroken⟩
    exact ⟨starts, items, u, _, _, hrounds, .recovered hend hbroken, rfl⟩

/-! ## How often the item is run -/

/-- The same parser, except for what it logs. -/
def withLog (log : Cursor → List Event) (p : Parser α) : Parser α where
  run s := { p.run s with events := log s }

section

variable {log : Cursor → List Event}

theorem KeepsContract.withLog (hp : KeepsContract source p) :
    KeepsContract source (p.withLog log) := hp

theorem Rounds.withLog (h : Rounds p s starts items t) :
    Rounds (p.withLog log) s starts items t := by
  induction h with
  | nil => exact .nil
  | cons hmatch hlt _ ih => exact .cons hmatch hlt ih

theorem Ending.withLog (h : Ending p s last reply t) : Ending (p.withLog log) s last reply t := by
  cases h with
  | atEnd hend => exact .atEnd hend
  | rejected hend hno => exact .rejected hend hno
  | idle hend hmatch hidle => exact .idle hend hmatch hidle
  | recovered hend hbroken => exact .recovered hend hbroken

end

theorem Ending.length_le_one (h : Ending p s last reply t) : last.length ≤ 1 := by
  cases h <;> simp

/-- There is one list of places at which the item is run, whatever it logs there. -/
theorem exists_runs (hp : KeepsContract source p) (hs : s.Reachable source) :
    ∃ runs : List Cursor, runs.length ≤ byteLength source.toList - s.offset + 1 ∧
      ∀ log, ((many (p.withLog log)).run s).events = runs.flatMap log := by
  obtain ⟨starts, items, t, last, reply, u, hrounds, hending⟩ := exists_rounds hp hs
  refine ⟨starts ++ last, ?_, fun log ↦ ?_⟩
  · have hbytes := hrounds.length_add_offset_le
    have honce := hending.length_le_one
    have hsize := (hrounds.reachable hp hs).standsIn.size_eq
    have hfits := t.fits
    rw [List.length_append]
    omega
  · rw [hrounds.withLog.run_many_of_ending hending.withLog hp.withLog hs]
    rfl

/-- A repetition never rejects, and it runs its item at most once for each byte that is left and
once more. It matches with the items of its rounds, where nothing is left or the item does not
match, or with one item more, which consumed nothing; and it recovers where the item recovers after
the rounds. -/
theorem many_in_rounds (hp : KeepsContract source p) (hs : s.Reachable source) :
    ¬ (many p).Rejects s ∧
      (∃ runs : List Cursor, runs.length ≤ byteLength source.toList - s.offset + 1 ∧
        ∀ log, ((many (p.withLog log)).run s).events = runs.flatMap log) ∧
      (∀ items t, (many p).Matches s items t ↔
        (∃ starts, Rounds p s starts items t ∧ (t.atEnd = true ∨ p.Rejects t)) ∨
        ∃ starts before u a, Rounds p s starts before u ∧ u.atEnd = false ∧ p.Matches u a t ∧
          t.offset = u.offset ∧ items = before ++ [a]) ∧
      ∀ e t, (many p).Recovers s e t ↔
        ∃ starts items u, Rounds p s starts items u ∧ u.atEnd = false ∧ p.Recovers u e t :=
  ⟨not_rejects_many, exists_runs hp hs, fun _ _ ↦ matches_many_iff hp hs,
    fun _ _ ↦ recovers_many_iff hp hs⟩

/-- Two digits are read before a letter breaks the repetition. -/
theorem many_in_rounds_broken :
    let p := here >>= fun start ↦ (satisfy Char.isDigit).orFail start "digit expected"
    let source := "é12x)3"
    let s := (Cursor.ofSource source).advance
    let e : SyntaxError := ⟨"digit expected", 1, 4, 4⟩
    KeepsContract source p ∧ s.Reachable source ∧ ((many p).run s).reply = .recovered e ∧
      ¬ (many p).Rejects s ∧
      (∃ runs : List Cursor, runs.length ≤ byteLength source.toList - s.offset + 1 ∧
        ∀ log, ((many (p.withLog log)).run s).events = runs.flatMap log) ∧
      ∃ starts items u, Rounds p s starts items u ∧ u.atEnd = false ∧
        p.Recovers u e ((many p).run s).cursor := by
  intro p source s e
  have hp : KeepsContract source p := keepsContract_committed _ _
  have hs : s.Reachable source := .advance .ofSource
  have hreply : ((many p).run s).reply = .recovered e := by decide +kernel
  obtain ⟨hno, hruns, -, hrecovers⟩ := many_in_rounds hp hs
  exact ⟨hp, hs, hreply, hno, hruns, (hrecovers e _).1 ⟨hreply, rfl⟩⟩

end Parser

end Lispette
