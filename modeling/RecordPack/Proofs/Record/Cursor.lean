import RecordPack.Proofs.LengthPrefix
import RecordPack.Record.Reader

/-!
# What a reader passes over

`c.Passes bs c'` says that the cursor `c'` stands right after the bytes `bs`, which come next at `c`. A
step of a reader succeeds exactly when the bytes it is to pass over are there (`take_eq_ok`,
`length_eq_ok`, `Reader.string_eq_ok`), whatever follows them.
-/

namespace RecordPack

namespace Cursor

/-- The bytes come next, and the second cursor stands after them. -/
def Passes (c : Cursor) (bs : Bytes) (c' : Cursor) : Prop :=
  c.rest = bs ++ c'.rest ∧ c'.offset = c.offset + bs.length

variable {c c' c'' : Cursor} {as bs : Bytes} {n : Nat}

theorem passes_nil : c.Passes [] c' ↔ c' = c := by
  obtain ⟨o, r⟩ := c
  obtain ⟨o', r'⟩ := c'
  simp only [Passes, List.nil_append, List.length_nil, Nat.add_zero, Cursor.mk.injEq]
  constructor
  · rintro ⟨rfl, rfl⟩
    exact ⟨rfl, rfl⟩
  · rintro ⟨rfl, rfl⟩
    exact ⟨rfl, rfl⟩

theorem passes_append : c.Passes (as ++ bs) c'' ↔ ∃ c', c.Passes as c' ∧ c'.Passes bs c'' := by
  constructor
  · rintro ⟨hrest, hoff⟩
    refine ⟨⟨c.offset + as.length, bs ++ c''.rest⟩, ⟨?_, rfl⟩, rfl, ?_⟩
    · rw [hrest, List.append_assoc]
    · rw [hoff, List.length_append, Nat.add_assoc]
  · rintro ⟨c', ⟨hrest, hoff⟩, hrest', hoff'⟩
    refine ⟨?_, ?_⟩
    · rw [hrest, hrest', List.append_assoc]
    · rw [hoff', hoff, List.length_append, Nat.add_assoc]

theorem Passes.length_eq (h : c.Passes bs c') : c.rest.length = bs.length + c'.rest.length := by
  rw [h.1, List.length_append]

theorem Passes.eq_skip (h : c.Passes bs c') : c' = c.skip bs.length := by
  obtain ⟨o', r'⟩ := c'
  obtain ⟨hrest, hoff⟩ := h
  simp [skip, hrest, ← hoff]

theorem passes_take (h : n ≤ c.rest.length) : c.Passes (c.rest.take n) (c.skip n) := by
  refine ⟨(List.take_append_drop n c.rest).symm, ?_⟩
  simp only [skip, List.length_take, Nat.min_eq_left h]

theorem take_eq_ok : c.take n = .ok (bs, c') ↔ bs.length = n ∧ c.Passes bs c' := by
  simp only [take]
  constructor
  · intro h
    split at h
    · cases h
    · next hlt =>
      have hle : n ≤ c.rest.length := by
        rw [List.length_take] at hlt
        omega
      cases h
      exact ⟨by simp [hle], passes_take hle⟩
  · rintro ⟨rfl, h⟩
    have htake : c.rest.take bs.length = bs := by rw [h.1, List.take_left]
    rw [htake, if_neg (Nat.lt_irrefl _), h.eq_skip]

theorem take_of_lt (h : c.rest.length < n) : c.take n = .error (.truncated c.offset n c.rest.length) := by
  have htake : c.rest.take n = c.rest := List.take_of_length_le h.le
  simp only [take, htake, if_pos h]

/-- What is split off is a piece that ends where the other cursor stands. -/
theorem split_eq_ok {piece : Cursor} :
    c.split n = .ok (piece, c') ↔ ∃ bs, piece = ⟨c.offset, bs⟩ ∧ bs.length = n ∧ c.Passes bs c' := by
  unfold split
  simp only [map_eq_ok, Prod.exists, Prod.mk.injEq, take_eq_ok]
  constructor
  · rintro ⟨bs, c₁, h, rfl, rfl⟩
    exact ⟨bs, rfl, h⟩
  · rintro ⟨bs, rfl, h⟩
    exact ⟨bs, c', h, rfl, rfl⟩

theorem length_eq_ok : c.length = .ok (n, c') ↔ ∃ p, LengthPrefix.Measures p n ∧ c.Passes p c' := by
  unfold length
  constructor
  · intro h
    split at h
    · next w m hread =>
      cases h
      obtain ⟨hlen, hmeas⟩ := LengthPrefix.measures_of_read hread
      refine ⟨c.rest.take w, hmeas, passes_take ?_⟩
      rw [List.length_take] at hlen
      omega
    · cases h
  · rintro ⟨p, hmeas, h⟩
    rw [h.1, LengthPrefix.read_of_measures hmeas, h.eq_skip]

end Cursor

namespace Reader

open LengthPrefix (Measures)

variable {c c' : Cursor}

theorem string_eq_ok {s : Bytes} :
    string c = .ok (s, c') ↔ ∃ p, Measures p s.length ∧ c.Passes (p ++ s) c' := by
  simp only [string, bind_eq_ok, Prod.exists, Cursor.length_eq_ok, Cursor.take_eq_ok, Cursor.passes_append]
  constructor
  · rintro ⟨n, c₁, ⟨p, hp, hc⟩, rfl, hs⟩
    exact ⟨p, hp, c₁, hc, hs⟩
  · rintro ⟨p, hp, c₁, hc, hs⟩
    exact ⟨s.length, c₁, ⟨p, hp, hc⟩, rfl, hs⟩

/-- Strings are passed over one after the other, each with the length in front of it. -/
theorem strings_eq_ok {count : Nat} {ss : List Bytes} : ∀ {c c' : Cursor},
    strings count c = .ok (ss, c') ↔ ∃ ps : List (Bytes × Bytes), ps.map Prod.snd = ss ∧ ps.length = count ∧
      (∀ x ∈ ps, Measures x.1 x.2.length) ∧ c.Passes (ps.flatMap fun x => x.1 ++ x.2) c' := by
  induction count generalizing ss with
  | zero =>
    intro c c'
    simp only [strings, Except.ok.injEq, Prod.mk.injEq]
    constructor
    · rintro ⟨rfl, rfl⟩
      exact ⟨[], rfl, rfl, by simp, Cursor.passes_nil.2 rfl⟩
    · rintro ⟨ps, rfl, hlen, -, hc⟩
      obtain rfl := List.eq_nil_of_length_eq_zero hlen
      exact ⟨rfl, (Cursor.passes_nil.1 hc).symm⟩
  | succ count ih =>
    intro c c'
    simp only [strings, bind_eq_ok, Prod.exists, string_eq_ok, ih, pure_eq_ok, Prod.mk.injEq]
    constructor
    · rintro ⟨s, c₁, ⟨p, hp, hc⟩, ss', c₂, ⟨ps, rfl, hlen, hps, hc'⟩, rfl, rfl⟩
      refine ⟨(p, s) :: ps, rfl, by rw [List.length_cons, hlen], ?_, ?_⟩
      · intro x hx
        rcases List.mem_cons.1 hx with rfl | hx
        · exact hp
        · exact hps x hx
      · rw [List.flatMap_cons]
        exact Cursor.passes_append.2 ⟨c₁, hc, hc'⟩
    · rintro ⟨ps, rfl, hlen, hps, hc⟩
      -- one string more was announced, so there is a first one
      obtain ⟨⟨p, s⟩, ps, rfl⟩ := List.exists_cons_of_length_eq_add_one hlen
      rw [List.flatMap_cons] at hc
      obtain ⟨c₁, hc, hc'⟩ := Cursor.passes_append.1 hc
      refine ⟨s, c₁, ⟨p, hps _ List.mem_cons_self, hc⟩, ps.map Prod.snd, c', ?_, rfl, rfl⟩
      refine ⟨ps, rfl, by simpa using hlen, ?_, hc'⟩
      exact fun x hx => hps x (List.mem_cons_of_mem _ hx)

/-- A payload is nothing but its strings. -/
theorem payload_eq_ok {id : String} {count : Nat} {o : Nat} {bs : Bytes} {v : Value} :
    payload id count ⟨o, bs⟩ = .ok v ↔ ∃ ps : List (Bytes × Bytes), v = .list (ps.map (.bytes ·.2)) ∧
      ps.length = count ∧ (∀ x ∈ ps, Measures x.1 x.2.length) ∧ bs = ps.flatMap fun x => x.1 ++ x.2 := by
  simp only [payload, bind_eq_ok, Prod.exists, strings_eq_ok]
  constructor
  · rintro ⟨ss, c', ⟨ps, rfl, hlen, hps, hc⟩, h⟩
    split at h
    · -- nothing is left, so the strings are the whole payload
      next hempty =>
      refine ⟨ps, ?_, hlen, hps, ?_⟩
      · rw [← pure_eq_ok.1 h, List.map_map]
        rfl
      · have := hc.1
        rwa [List.isEmpty_iff.1 hempty, List.append_nil] at this
    · cases h
  · rintro ⟨ps, rfl, hlen, hps, rfl⟩
    refine ⟨_, ⟨o + (ps.flatMap fun x => x.1 ++ x.2).length, []⟩, ⟨ps, rfl, hlen, hps, ?_, rfl⟩, ?_⟩
    · simp
    · simp [pure, Except.pure]

end Reader

end RecordPack
