import RecordPack.Proofs.Record.InPlace

/-!
# The payload of a list of strings

The payload is the strings, each behind its length (`Strings.pack`). It is read with a count that may be wrong: it holds
as many strings as it is read with, or some of it is left unused, or a length is missing where it ends
(`Reader.payload_pack`). So a payload of whatever bytes is read with one count at most, and the payload that is written
for a list is read with the number of its strings alone (`Strings.payload_counts`).
-/

namespace RecordPack

open LengthPrefix (Measures)

namespace Strings

variable {ps qs : List (Bytes × Bytes)}

/-- Strings one after the other, each behind the prefix for its length. -/
def pack (ps : List (Bytes × Bytes)) : Bytes := ps.flatMap fun x => x.1 ++ x.2

theorem pack_cons (x : Bytes × Bytes) (ps : List (Bytes × Bytes)) : pack (x :: ps) = x.1 ++ x.2 ++ pack ps := rfl

theorem pack_append (ps qs : List (Bytes × Bytes)) : pack (ps ++ qs) = pack ps ++ pack qs := List.flatMap_append

/-- A string takes up bytes even if it has none. -/
theorem length_pack_pos (hps : ∀ x ∈ ps, Measures x.1 x.2.length) (hne : ps ≠ []) : 0 < (pack ps).length := by
  obtain ⟨x, ps, rfl⟩ := List.exists_cons_of_ne_nil hne
  have hlen := (hps x List.mem_cons_self).length_eq
  rw [pack_cons, List.length_append, List.length_append]
  omega

/-- Every string that has a prefix can stand behind the one that is written. -/
theorem exists_encoded {ss : List Bytes} (h : ∀ s ∈ ss, s.length ≤ LengthPrefix.maxLength) :
    ∃ ps : List (Bytes × Bytes), ps.map Prod.snd = ss ∧ ∀ x ∈ ps, LengthPrefix.encode x.2.length = .ok x.1 := by
  induction ss with
  | nil => exact ⟨[], rfl, by simp⟩
  | cons s ss ih =>
    obtain ⟨hs, hss⟩ := List.forall_mem_cons.1 h
    obtain ⟨p, hp⟩ := LengthPrefix.exists_encode hs
    obtain ⟨ps, rfl, hps⟩ := ih hss
    exact ⟨(p, s) :: ps, rfl, List.forall_mem_cons.2 ⟨hp, hps⟩⟩

theorem write_map_snd (h : ∀ x ∈ ps, LengthPrefix.encode x.2.length = .ok x.1) :
    write (ps.map Prod.snd) = .ok (pack ps) := by
  induction ps with
  | nil => rfl
  | cons x ps ih =>
    obtain ⟨hx, hps⟩ := List.forall_mem_cons.1 h
    rw [List.map_cons, write, writeOne, hx, ih hps]
    rfl

/-- The length that is announced is that of the bytes that are written. -/
theorem payloadLength_map_snd (h : ∀ x ∈ ps, LengthPrefix.encode x.2.length = .ok x.1) :
    payloadLength (ps.map Prod.snd) = .ok (pack ps).length := by
  obtain ⟨pieces, hpieces, hbytes⟩ := map_eq_ok.1 ((write_eq _).symm.trans (write_map_snd h))
  rw [payloadLength_eq, hpieces, map_ok, hbytes]

end Strings

namespace Reader

open Strings (pack pack_cons pack_append)

variable {c c' : Cursor} {ps : List (Bytes × Bytes)}

/-- A length is missing where nothing is left. -/
theorem string_of_rest_nil (h : c.rest = []) : string c = .error (.length (.malformed c.offset 4 0)) := by
  rw [string, Cursor.length, h]
  rfl

/-- One string more than there are fails where they end. -/
theorem strings_of_lt {count : Nat} (hlt : ps.length < count) (hps : ∀ x ∈ ps, Measures x.1 x.2.length) :
    ∀ {c : Cursor}, c.Passes (pack ps) c' → c'.rest = [] →
      strings count c = .error (.length (.malformed c'.offset 4 0)) := by
  -- induction on the strings, each of which takes one from the count
  induction ps generalizing count with
  | nil =>
    intro c hc hend
    obtain rfl := Cursor.passes_nil.1 hc
    obtain ⟨count, rfl⟩ := Nat.exists_eq_add_one_of_ne_zero (Nat.ne_of_gt hlt)
    rw [strings, string_of_rest_nil hend]
    rfl
  | cons x ps ih =>
    intro c hc hend
    obtain ⟨count, rfl⟩ := Nat.exists_eq_add_one_of_ne_zero (Nat.ne_zero_of_lt hlt)
    obtain ⟨hx, hps⟩ := List.forall_mem_cons.1 hps
    rw [pack_cons] at hc
    obtain ⟨c₁, hc, hc'⟩ := Cursor.passes_append.1 hc
    have hstring : string c = .ok (x.2, c₁) := string_eq_ok.2 ⟨x.1, hx, hc⟩
    rw [strings, hstring, ok_bind]
    dsimp only
    rw [ih (Nat.lt_of_succ_lt_succ hlt) hps hc' hend]
    rfl

/-- What a payload of strings gives for each count. -/
theorem payload_pack (hps : ∀ x ∈ ps, Measures x.1 x.2.length) (id : String) (count offset : Nat) :
    payload id count ⟨offset, pack ps⟩ =
      if count = ps.length then .ok (.list (ps.map (.bytes ·.2)))
      else if count < ps.length then .error (.unusedBytes id (pack (ps.drop count)).length)
      else .error (.length (.malformed (offset + (pack ps).length) 4 0)) := by
  split
  · next heq =>
    subst heq
    exact payload_eq_ok.2 ⟨ps, rfl, rfl, hps, rfl⟩
  · next hne =>
    split
    · next hlt =>
      -- the strings that are counted are read, and the others are left
      have hread : strings count ⟨offset, pack ps⟩ = .ok ((ps.take count).map Prod.snd,
          ⟨offset + (pack (ps.take count)).length, pack (ps.drop count)⟩) := by
        refine strings_eq_ok.2 ⟨ps.take count, rfl, List.length_take_of_le hlt.le, ?_, ?_, rfl⟩
        · exact fun x hx => hps x (List.mem_of_mem_take hx)
        · rw [← pack, ← pack_append, List.take_append_drop]
      have hpos : 0 < (pack (ps.drop count)).length := by
        refine Strings.length_pack_pos (fun x hx => hps x (List.mem_of_mem_drop hx)) ?_
        simpa using hlt
      have hleft : (pack (ps.drop count)).isEmpty = false := by
        rw [List.isEmpty_eq_false_iff]
        exact List.ne_nil_of_length_pos hpos
      rw [payload, hread, ok_bind]
      dsimp only
      rw [hleft]
      rfl
    · next hnlt =>
      have hlt : ps.length < count := by omega
      have hc : Cursor.Passes ⟨offset, pack ps⟩ (pack ps) ⟨offset + (pack ps).length, []⟩ :=
        ⟨(List.append_nil _).symm, rfl⟩
      rw [payload, strings_of_lt hlt hps hc rfl]
      rfl

/-- Whatever the bytes of a payload are, it is read with one count at most. -/
theorem count_unique {id id' : String} {m n offset offset' : Nat} {bs : Bytes} {v w : Value}
    (hm : payload id m ⟨offset, bs⟩ = .ok v) (hn : payload id' n ⟨offset', bs⟩ = .ok w) : m = n := by
  obtain ⟨ps, -, rfl, hps, rfl⟩ := payload_eq_ok.1 hm
  have hread := payload_pack hps id' n offset'
  rw [pack, hn] at hread
  split at hread
  · next heq => exact heq.symm
  · split at hread <;> cases hread

end Reader

namespace Strings

/-- The payload of a list of strings, none of which is too long for a prefix, is as long as was announced and stands
behind what the buffer held. It is read back with the number of the strings; with a lesser count, the bytes of those that
were not counted are left unused, and with a greater one, however great, a length is missing where the payload ends. Of
any bytes, written or not, no two counts are accepted. -/
theorem payload_counts :
    (∀ ss : List Bytes, (∀ s ∈ ss, s.length < 2 ^ 63) → ∃ bs, payloadLength ss = .ok bs.length ∧
      (∀ out, (InPlace.writeStrings ss).on out = (.ok (), out ++ bs)) ∧
      ∀ id offset count,
        (count = ss.length → Reader.payload id count ⟨offset, bs⟩ = .ok (.list (ss.map .bytes))) ∧
        (count < ss.length → ∃ unused, 0 < unused ∧ payloadLength (ss.drop count) = .ok unused ∧
          Reader.payload id count ⟨offset, bs⟩ = .error (.unusedBytes id unused)) ∧
        (ss.length < count →
          Reader.payload id count ⟨offset, bs⟩ = .error (.length (.malformed (offset + bs.length) 4 0)))) ∧
    ∀ (bs : Bytes) id offset m n v w, Reader.payload id m ⟨offset, bs⟩ = .ok v →
      Reader.payload id n ⟨offset, bs⟩ = .ok w → m = n := by
  refine ⟨?_, fun _ _ _ _ _ _ _ => Reader.count_unique⟩
  intro ss hss
  obtain ⟨ps, rfl, hps⟩ := exists_encoded fun s hs => Nat.le_sub_one_of_lt (hss s hs)
  have hmeasures : ∀ x ∈ ps, Measures x.1 x.2.length := fun x hx => LengthPrefix.measures_of_encode (hps x hx)
  refine ⟨pack ps, payloadLength_map_snd hps, ?_, ?_⟩
  · intro out
    have happends := InPlace.appends_strings (ps.map Prod.snd) out
    rw [write_map_snd hps, mapError_ok] at happends
    simpa [InPlace.Appends, InPlace.Writes] using happends
  · intro id offset count
    rw [Reader.payload_pack hmeasures, List.length_map]
    refine ⟨?_, ?_, ?_⟩
    · intro heq
      rw [if_pos heq, List.map_map]
      rfl
    · intro hlt
      have hdrop : ∀ x ∈ ps.drop count, LengthPrefix.encode x.2.length = .ok x.1 :=
        fun x hx => hps x (List.mem_of_mem_drop hx)
      refine ⟨(pack (ps.drop count)).length, ?_, ?_, ?_⟩
      · refine length_pack_pos (fun x hx => hmeasures x (List.mem_of_mem_drop hx)) ?_
        simpa using hlt
      · rw [← List.map_drop, payloadLength_map_snd hdrop]
      · rw [if_neg hlt.ne, if_pos hlt]
    · intro hlt
      rw [if_neg (Nat.ne_of_gt hlt), if_neg (Nat.not_lt.2 hlt.le)]

/-- Two strings, of which the first is empty, behind a byte. With one less and with the greatest count there is, a reader
says that bytes are left unused, and that a length is missing. -/
theorem payload_counts_sample :
    (InPlace.writeStrings [[], [65]]).on [7] = (.ok (), [7] ++ [0, 0, 0, 0, 0, 0, 0, 1, 65]) ∧
    payloadLength [[], [65]] = .ok 9 ∧
    (∃ unused, payloadLength [[65]] = .ok unused ∧ Reader.payload "tags" 1 ⟨20, [0, 0, 0, 0, 0, 0, 0, 1, 65]⟩ =
      .error (.unusedBytes "tags" unused)) ∧
    Reader.payload "tags" (2 ^ 64 - 1) ⟨20, [0, 0, 0, 0, 0, 0, 0, 1, 65]⟩ = .error (.length (.malformed 29 4 0)) ∧
    (CodecError.unusedBytes "tags" 5).message = "malformed record: field tags: 5 unused byte(s) in list payload" := by
  obtain ⟨bs, hlen, hwrite, hread⟩ := payload_counts.1 [[], [65]] (by decide)
  have hbytes : (InPlace.writeStrings [[], [65]]).on [7] = (.ok (), [7] ++ [0, 0, 0, 0, 0, 0, 0, 1, 65]) := rfl
  obtain rfl : [0, 0, 0, 0, 0, 0, 0, 1, 65] = bs := by
    have hsame := congrArg Prod.snd (hbytes.symm.trans (hwrite [7]))
    exact List.append_cancel_left hsame
  refine ⟨hbytes, hlen, ?_, ?_, rfl⟩
  · obtain ⟨unused, -, hunused, hless⟩ := (hread "tags" 20 1).2.1 (by decide)
    exact ⟨unused, hunused, hless⟩
  · exact (hread "tags" 20 (2 ^ 64 - 1)).2.2 (by decide)

end Strings

end RecordPack
