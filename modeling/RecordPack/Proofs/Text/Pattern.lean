import Mathlib.Data.List.TakeWhile
import Mathlib.Tactic

/-!
# Patterns

A pattern describes texts and names parts of them (`Pattern.Describes`). A matcher that tries things in order and takes
back what did not lead on finds hits at the head of a text, and prefers the one that comes first: the more characters of
a class rather than fewer, a pattern that may be left out rather than nothing (`Pattern.hits`). What it finds is what the
pattern describes (`Pattern.mem_hits`). A class that what follows cannot start with is taken as far as it goes
(`Pattern.findSome?_many`).
-/

namespace RecordPack.Text

/-- A pattern for texts, in which parts may have names. -/
inductive Pattern (ι : Type) where
  /-- One character of a class. -/
  | one (p : Char → Bool)
  /-- Characters of a class, as many as possible. -/
  | many (p : Char → Bool)
  | followed (a b : Pattern ι)
  /-- One of two patterns, the first if possible. -/
  | either (a b : Pattern ι)
  /-- A pattern that may be left out, but is not if possible. -/
  | maybe (a : Pattern ι)
  | named (name : ι) (a : Pattern ι)

/-- What a pattern takes off the head of a text. -/
structure Hit (ι : Type) where
  text : List Char
  /-- The named parts of it. -/
  parts : List (ι × List Char)
  rest : List Char
deriving DecidableEq

namespace Pattern

variable {ι β : Type}

/-- The whole text is as the pattern says, with these parts. -/
def Describes : Pattern ι → List Char → List (ι × List Char) → Prop
  | one p, cs, xs => (∃ c, p c = true ∧ cs = [c]) ∧ xs = []
  | many p, cs, xs => (∀ c ∈ cs, p c = true) ∧ xs = []
  | followed a b, cs, xs => ∃ cs₁ xs₁ cs₂ xs₂,
    a.Describes cs₁ xs₁ ∧ b.Describes cs₂ xs₂ ∧ cs = cs₁ ++ cs₂ ∧ xs = xs₁ ++ xs₂
  | either a b, cs, xs => a.Describes cs xs ∨ b.Describes cs xs
  | maybe a, cs, xs => a.Describes cs xs ∨ cs = [] ∧ xs = []
  | named name a, cs, xs => ∃ ys, a.Describes cs ys ∧ xs = (name, cs) :: ys

/-- The pattern describes what a text goes on with at a place. -/
def OccursAt (a : Pattern ι) (body : List Char) (place : Nat) : Prop :=
  ∃ text parts, a.Describes text parts ∧ text <+: body.drop place

/-- Of what the pattern describes at a place, this is the longest. -/
structure IsLongestAt (a : Pattern ι) (body : List Char) (place : Nat) (text : List Char) : Prop where
  describes : ∃ parts, a.Describes text parts
  isPrefix : text <+: body.drop place
  longest : ∀ text' parts, a.Describes text' parts → text' <+: body.drop place → text'.length ≤ text.length

section

variable {a b : Pattern ι} {cs : List Char} {xs : List (ι × List Char)}

theorem describes_one {p : Char → Bool} : (one p).Describes cs xs ↔ (∃ c, p c = true ∧ cs = [c]) ∧ xs = [] := Iff.rfl

theorem describes_followed : (followed a b).Describes cs xs ↔ ∃ cs₁ xs₁ cs₂ xs₂,
    a.Describes cs₁ xs₁ ∧ b.Describes cs₂ xs₂ ∧ cs = cs₁ ++ cs₂ ∧ xs = xs₁ ++ xs₂ := Iff.rfl

theorem describes_named {name : ι} : (named name a).Describes cs xs ↔ ∃ ys, a.Describes cs ys ∧ xs = (name, cs) :: ys :=
  Iff.rfl

/-- A pattern that may be left out describes what there is or is not. -/
theorem describes_maybe {α : Type} {P : α → Prop} {text : Option α → List Char}
    {parts : Option α → List (ι × List Char)} (htext : text none = []) (hparts : parts none = [])
    (h : ∀ cs xs, a.Describes cs xs ↔ ∃ x, P x ∧ cs = text (some x) ∧ xs = parts (some x)) :
    (maybe a).Describes cs xs ↔ ∃ o, (∀ x ∈ o, P x) ∧ cs = text o ∧ xs = parts o := by
  rw [Describes, h]
  constructor
  · rintro (⟨x, hx, rfl, rfl⟩ | ⟨rfl, rfl⟩)
    · refine ⟨some x, ?_, rfl, rfl⟩
      rintro _ ⟨⟩
      exact hx
    · exact ⟨none, nofun, htext.symm, hparts.symm⟩
  · rintro ⟨_ | x, ho, rfl, rfl⟩
    · exact .inr ⟨htext, hparts⟩
    · exact .inl ⟨x, ho x rfl, rfl, rfl⟩

end

/-- The hits of characters of a class, those with more of them first. -/
def hitsOfClass (p : Char → Bool) : List Char → List (Hit ι)
  | [] => [⟨[], [], []⟩]
  | c :: cs =>
    (if p c then (hitsOfClass p cs).map fun h => { h with text := c :: h.text } else []) ++ [⟨[], [], c :: cs⟩]

/-- All hits at the head of a text, in the order in which they are tried. -/
def hits : Pattern ι → List Char → List (Hit ι)
  | one _, [] => []
  | one p, c :: cs => if p c then [⟨[c], [], cs⟩] else []
  | many p, cs => hitsOfClass p cs
  | followed a b, cs =>
    (hits a cs).flatMap fun h => (hits b h.rest).map fun h' => ⟨h.text ++ h'.text, h.parts ++ h'.parts, h'.rest⟩
  | either a b, cs => hits a cs ++ hits b cs
  | maybe a, cs => hits a cs ++ [⟨[], [], cs⟩]
  | named name a, cs => (hits a cs).map fun h => { h with parts := (name, h.text) :: h.parts }

/-! ## What is found is what is described -/

theorem mem_hitsOfClass {p : Char → Bool} {cs text rest : List Char} {parts : List (ι × List Char)} :
    ⟨text, parts, rest⟩ ∈ hitsOfClass p cs ↔ cs = text ++ rest ∧ parts = [] ∧ ∀ c ∈ text, p c = true := by
  induction cs generalizing text with
  | nil =>
    simp only [hitsOfClass, List.mem_singleton, Hit.mk.injEq, List.nil_eq, List.append_eq_nil_iff]
    constructor
    · rintro ⟨rfl, rfl, rfl⟩
      simp
    · rintro ⟨⟨rfl, rfl⟩, rfl, -⟩
      simp
  | cons c cs ih =>
    rw [hitsOfClass, List.mem_append, List.mem_singleton, Hit.mk.injEq]
    constructor
    · rintro (h | ⟨rfl, rfl, rfl⟩)
      · split at h
        · next hc =>
          obtain ⟨⟨text', parts', rest'⟩, hmem, heq⟩ := List.mem_map.1 h
          cases heq
          obtain ⟨rfl, hparts, hall⟩ := ih.1 hmem
          exact ⟨rfl, hparts, List.forall_mem_cons.2 ⟨hc, hall⟩⟩
        · cases h
      · simp
    · rintro ⟨heq, rfl, hall⟩
      cases text with
      | nil => exact .inr ⟨rfl, rfl, heq.symm⟩
      | cons d text =>
        obtain ⟨rfl, rfl⟩ := List.cons.inj heq
        obtain ⟨hc, hall⟩ := List.forall_mem_cons.1 hall
        rw [if_pos hc]
        exact .inl (List.mem_map.2 ⟨⟨text, [], rest⟩, ih.2 ⟨rfl, rfl, hall⟩, rfl⟩)

/-- The hits are the ways to cut a text behind what the pattern describes. -/
theorem mem_hits {a : Pattern ι} {cs text rest : List Char} {parts : List (ι × List Char)} :
    ⟨text, parts, rest⟩ ∈ a.hits cs ↔ cs = text ++ rest ∧ a.Describes text parts := by
  induction a generalizing cs text rest parts with
  | one p =>
    constructor
    · intro h
      cases cs with
      | nil => cases h
      | cons c cs =>
        rw [hits] at h
        split at h
        · next hc =>
          cases List.mem_singleton.1 h
          exact ⟨rfl, ⟨c, hc, rfl⟩, rfl⟩
        · cases h
    · rintro ⟨rfl, ⟨c, hc, rfl⟩, rfl⟩
      simp [hits, hc]
  | many p =>
    rw [hits, mem_hitsOfClass, Describes, and_comm (a := parts = [])]
  | followed a b iha ihb =>
    simp only [hits, List.mem_flatMap, List.mem_map]
    constructor
    · rintro ⟨⟨text₁, parts₁, rest₁⟩, h₁, ⟨text₂, parts₂, rest₂⟩, h₂, heq⟩
      cases heq
      obtain ⟨rfl, hd₁⟩ := iha.1 h₁
      obtain ⟨rfl, hd₂⟩ := ihb.1 h₂
      exact ⟨(List.append_assoc ..).symm, _, _, _, _, hd₁, hd₂, rfl, rfl⟩
    · rintro ⟨rfl, cs₁, xs₁, cs₂, xs₂, hd₁, hd₂, rfl, rfl⟩
      refine ⟨⟨cs₁, xs₁, cs₂ ++ rest⟩, iha.2 ⟨List.append_assoc .., hd₁⟩, ⟨cs₂, xs₂, rest⟩, ihb.2 ⟨rfl, hd₂⟩, rfl⟩
  | either a b iha ihb =>
    rw [hits, List.mem_append, iha, ihb, ← and_or_left]
    rfl
  | maybe a ih =>
    rw [hits, List.mem_append, ih, List.mem_singleton, Hit.mk.injEq, Describes, and_or_left]
    refine or_congr_right ?_
    constructor
    · rintro ⟨rfl, rfl, rfl⟩
      exact ⟨rfl, rfl, rfl⟩
    · rintro ⟨rfl, rfl, rfl⟩
      exact ⟨rfl, rfl, rfl⟩
  | named name a ih =>
    simp only [hits, List.mem_map]
    constructor
    · rintro ⟨⟨text', parts', rest'⟩, hmem, heq⟩
      cases heq
      obtain ⟨rfl, hd⟩ := ih.1 hmem
      exact ⟨rfl, _, hd, rfl⟩
    · rintro ⟨rfl, xs, hd, rfl⟩
      exact ⟨⟨text, xs, rest⟩, ih.2 ⟨rfl, hd⟩, rfl⟩

/-! ## The hit that is preferred -/

section Preference

variable {k : Hit ι → Option β} {p : Char → Bool} {a b : Pattern ι} {cs : List Char}

theorem findSome?_flatMap {α γ : Type} (l : List α) (f : α → List γ) (k : γ → Option β) :
    (l.flatMap f).findSome? k = l.findSome? fun x => (f x).findSome? k := by
  induction l with
  | nil => rfl
  | cons x l ih =>
    rw [List.flatMap_cons, List.findSome?_append, ih, List.findSome?_cons]
    cases (f x).findSome? k <;> rfl

theorem findSome?_one : ((one p).hits cs).findSome? k = match cs with
    | [] => none
    | c :: rest => if p c then k ⟨[c], [], rest⟩ else none := by
  cases cs with
  | nil => rfl
  | cons c rest =>
    rw [hits]
    by_cases hc : p c = true
    · rw [if_pos hc, List.findSome?_singleton]
      exact (if_pos hc).symm
    · rw [if_neg hc, List.findSome?_nil]
      exact (if_neg hc).symm

theorem findSome?_followed : ((followed a b).hits cs).findSome? k = (a.hits cs).findSome? fun h =>
    (b.hits h.rest).findSome? fun h' => k ⟨h.text ++ h'.text, h.parts ++ h'.parts, h'.rest⟩ := by
  rw [hits, findSome?_flatMap]
  simp only [List.findSome?_map]
  rfl

theorem findSome?_either :
    ((either a b).hits cs).findSome? k = ((a.hits cs).findSome? k).or ((b.hits cs).findSome? k) := by
  rw [hits, List.findSome?_append]

theorem findSome?_maybe : ((maybe a).hits cs).findSome? k = ((a.hits cs).findSome? k).or (k ⟨[], [], cs⟩) := by
  rw [hits, List.findSome?_append, List.findSome?_singleton]

theorem findSome?_named {name : ι} : ((named name a).hits cs).findSome? k =
    (a.hits cs).findSome? fun h => k { h with parts := (name, h.text) :: h.parts } := by
  rw [hits, List.findSome?_map]
  rfl

/-- If it leads on to take the class as far as it goes, nothing else is tried. -/
theorem findSome?_many_of_some {rest : List Char} {y : β} (hall : ∀ c ∈ cs, p c = true)
    (hstop : ∀ c ∈ rest.head?, p c = false) (hk : k ⟨cs, [], rest⟩ = some y) :
    ((many p).hits (cs ++ rest)).findSome? k = some y := by
  rw [hits]
  induction cs generalizing k with
  | nil =>
    cases rest with
    | nil => rw [List.nil_append, hitsOfClass, List.findSome?_singleton, hk]
    | cons c rest =>
      rw [List.nil_append, hitsOfClass, hstop c rfl, if_neg Bool.false_ne_true, List.nil_append, List.findSome?_singleton, hk]
  | cons c cs ih =>
    obtain ⟨hc, hall⟩ := List.forall_mem_cons.1 hall
    have hfirst := ih (k := k ∘ fun h => { h with text := c :: h.text }) hall hk
    rw [List.cons_append, hitsOfClass, if_pos hc, List.findSome?_append, List.findSome?_map, hfirst, Option.some_or]

/-- If what follows does not start with a character of the class, the class is taken as far as it goes. -/
theorem findSome?_many (hk : ∀ text c rest, p c = true → k ⟨text, [], c :: rest⟩ = none) :
    ((many p).hits cs).findSome? k = k ⟨cs.takeWhile p, [], cs.dropWhile p⟩ := by
  rw [hits]
  induction cs generalizing k with
  | nil =>
    rw [hitsOfClass, List.findSome?_singleton, List.takeWhile_nil, List.dropWhile_nil]
  | cons c cs ih =>
    by_cases hc : p c = true
    · rw [hitsOfClass, if_pos hc, List.findSome?_append, List.findSome?_map, List.findSome?_singleton,
        hk _ _ _ hc, Option.or_none, List.takeWhile_cons_of_pos hc, List.dropWhile_cons_of_pos hc]
      exact ih fun text d rest hd => hk (c :: text) d rest hd
    · rw [hitsOfClass, if_neg hc, List.nil_append, List.takeWhile_cons_of_neg hc, List.dropWhile_cons_of_neg hc,
        List.findSome?_singleton]

end Preference

end Pattern

end RecordPack.Text
