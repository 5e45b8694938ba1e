import RecordPack.Proofs.Codec

/-!
# The form of a record

The bytes of a record fall into parts in one way: a prefix says where it ends itself, and all that stands behind it is
as long as the prefix or the schema says. So every code of this kind can be taken off the head of a longer text
(`append_inj`), and the bytes of a record alone determine its parts and its row (`Codec.Carries.inj`).
-/

namespace RecordPack

open LengthPrefix (Measures)

variable {x y : Bytes}

theorem LengthPrefix.Measures.append_inj {p q : Bytes} {m n : Nat} (hp : Measures p m) (hq : Measures q n)
    (h : p ++ x = q ++ y) : p = q ∧ m = n ∧ x = y := by
  have hread := read_of_measures hp 0 x
  rw [h, read_of_measures hq 0 y] at hread
  simp only [Except.ok.injEq, Prod.mk.injEq] at hread
  obtain ⟨hlen, rfl⟩ := hread
  obtain ⟨rfl, rfl⟩ := List.append_inj h hlen.symm
  exact ⟨rfl, rfl, rfl⟩

theorem Extent.Counts.append_inj {extent : Extent} {m n : Nat} {ps qs : List Part} (hp : extent.Counts m ps)
    (hq : extent.Counts n qs) (h : Part.allBytes ps ++ x = Part.allBytes qs ++ y) : ps = qs ∧ m = n ∧ x = y := by
  cases hp with
  | fixed n =>
    cases hq with
    | fixed _ => exact ⟨rfl, rfl, h⟩
  | dynamic hp =>
    cases hq with
    | dynamic hq =>
      obtain ⟨rfl, rfl, rfl⟩ := hp.append_inj hq (by simpa using h)
      exact ⟨rfl, rfl, rfl⟩

/-- Pieces of one width are cut off one by one. -/
theorem flatten_append_inj {width : Nat} {as : List Bytes} : ∀ {bs : List Bytes}, (∀ a ∈ as, a.length = width) →
    (∀ b ∈ bs, b.length = width) → as.length = bs.length → as.flatten ++ x = bs.flatten ++ y → as = bs ∧ x = y := by
  induction as with
  | nil =>
    intro bs _ _ hlen h
    obtain rfl := List.eq_nil_of_length_eq_zero hlen.symm
    exact ⟨rfl, h⟩
  | cons a as ih =>
    intro bs ha hb hlen h
    obtain ⟨b, bs, rfl⟩ := List.exists_cons_of_length_eq_add_one hlen.symm
    obtain ⟨ha, has⟩ := List.forall_mem_cons.1 ha
    obtain ⟨hb, hbs⟩ := List.forall_mem_cons.1 hb
    simp only [List.flatten_cons, List.append_assoc] at h
    obtain ⟨rfl, hrest⟩ := List.append_inj h (ha.trans hb.symm)
    obtain ⟨rfl, rfl⟩ := ih has hbs (Nat.succ.inj hlen) hrest
    exact ⟨rfl, rfl⟩

/-- Strings behind their lengths are cut off one by one. -/
theorem strings_append_inj {as : List (Bytes × Bytes)} : ∀ {bs : List (Bytes × Bytes)},
    (∀ a ∈ as, Measures a.1 a.2.length) → (∀ b ∈ bs, Measures b.1 b.2.length) → as.length = bs.length →
    Part.allBytes (as.flatMap Part.ofString) ++ x = Part.allBytes (bs.flatMap Part.ofString) ++ y →
      as = bs ∧ x = y := by
  induction as with
  | nil =>
    intro bs _ _ hlen h
    obtain rfl := List.eq_nil_of_length_eq_zero hlen.symm
    exact ⟨rfl, h⟩
  | cons a as ih =>
    intro bs ha hb hlen h
    obtain ⟨b, bs, rfl⟩ := List.exists_cons_of_length_eq_add_one hlen.symm
    obtain ⟨ha, has⟩ := List.forall_mem_cons.1 ha
    obtain ⟨hb, hbs⟩ := List.forall_mem_cons.1 hb
    obtain ⟨p, s⟩ := a
    obtain ⟨q, t⟩ := b
    simp only [List.flatMap_cons, Part.allBytes_append, Part.ofString, Part.allBytes_cons, Part.bytes, Part.allBytes_nil,
      List.append_nil, List.append_assoc] at h
    obtain ⟨rfl, hst, h⟩ := ha.append_inj hb h
    obtain ⟨rfl, hrest⟩ := List.append_inj h hst
    obtain ⟨rfl, rfl⟩ := ih has hbs (Nat.succ.inj hlen) hrest
    exact ⟨rfl, rfl⟩

namespace Field

variable {e : Endian} {f : Field}

theorem Carries.append_inj {ps qs : List Part} {v w : Value} (hp : f.Carries e ps v) (hq : f.Carries e qs w)
    (h : Part.allBytes ps ++ x = Part.allBytes qs ++ y) : ps = qs ∧ v = w ∧ x = y := by
  cases hp with
  | @scalar bs hcount hwidth =>
    cases hq with
    | @scalar bs' _ hwidth' =>
      have hlen : bs.length = bs'.length := Extent.fixed.inj (hwidth.symm.trans hwidth')
      obtain ⟨rfl, rfl⟩ := List.append_inj (by simpa using h) hlen
      exact ⟨rfl, rfl, rfl⟩
    | string _ hwidth' => cases hwidth.symm.trans hwidth'
    | list hcount' => cases hcount.symm.trans hcount'
    | strings hcount' => cases hcount.symm.trans hcount'
  | @string p s hcount hwidth hm =>
    cases hq with
    | scalar _ hwidth' => cases hwidth.symm.trans hwidth'
    | @string q t _ _ hm' =>
      obtain ⟨rfl, hst, h⟩ := hm.append_inj hm' (by simpa [Part.ofString] using h)
      obtain ⟨rfl, rfl⟩ := List.append_inj h hst
      exact ⟨rfl, rfl, rfl⟩
    | list hcount' => cases hcount.symm.trans hcount'
    | strings hcount' => cases hcount.symm.trans hcount'
  | @list extent width count places hcount hwidth hc hall =>
    cases hq with
    | scalar hcount' => cases hcount.symm.trans hcount'
    | string hcount' => cases hcount.symm.trans hcount'
    | @list extent' width' count' places' hcount' hwidth' hc' hall' =>
      obtain rfl := Option.some.inj (hcount.symm.trans hcount')
      obtain rfl := Extent.fixed.inj (hwidth.symm.trans hwidth')
      simp only [Part.allBytes_append, Part.allBytes_places, List.append_assoc] at h
      obtain ⟨rfl, hlen, h⟩ := hc.append_inj hc' h
      obtain ⟨rfl, rfl⟩ := flatten_append_inj hall hall' hlen h
      exact ⟨rfl, rfl, rfl⟩
    | strings _ hwidth' => cases hwidth.symm.trans hwidth'
  | @strings extent size count strings hcount hwidth hsize hc hall =>
    cases hq with
    | scalar hcount' => cases hcount.symm.trans hcount'
    | string hcount' => cases hcount.symm.trans hcount'
    | list _ hwidth' => cases hwidth.symm.trans hwidth'
    | @strings extent' size' count' strings' hcount' _ hsize' hc' hall' =>
      obtain rfl := Option.some.inj (hcount.symm.trans hcount')
      simp only [Part.allBytes_cons, Part.bytes, Part.allBytes_append, List.append_assoc] at h
      obtain ⟨rfl, -, h⟩ := hsize.append_inj hsize' h
      obtain ⟨rfl, hlen, h⟩ := hc.append_inj hc' h
      obtain ⟨rfl, rfl⟩ := strings_append_inj hall hall' hlen h
      exact ⟨rfl, rfl, rfl⟩

theorem CarriesAll.append_inj {fs : List Field} {ps : List Part} {vs : Row} (hp : CarriesAll e fs ps vs) :
    ∀ {qs : List Part} {ws : Row}, CarriesAll e fs qs ws →
      Part.allBytes ps ++ x = Part.allBytes qs ++ y → ps = qs ∧ vs = ws ∧ x = y := by
  induction hp with
  | nil =>
    intro qs ws hq h
    cases hq
    exact ⟨rfl, rfl, h⟩
  | cons hcar _ ih =>
    intro qs ws hq h
    cases hq with
    | cons hcar' hcars' =>
      simp only [Part.allBytes_append, List.append_assoc] at h
      obtain ⟨rfl, rfl, h⟩ := hcar.append_inj hcar' h
      obtain ⟨rfl, rfl, rfl⟩ := ih hcars' h
      exact ⟨rfl, rfl, rfl⟩

end Field

/-- The bytes of a record determine its parts and its row. -/
theorem Codec.Carries.inj {c : Codec} {ps qs : List Part} {row row' : Row} (hp : c.Carries ps row)
    (hq : c.Carries qs row') (h : Part.allBytes ps = Part.allBytes qs) : ps = qs ∧ row = row' := by
  obtain ⟨head, body, rfl, hm, hcar⟩ := hp
  obtain ⟨head', body', rfl, hm', hcar'⟩ := hq
  simp only [Part.allBytes_cons, Part.bytes] at h
  obtain ⟨rfl, -, h⟩ := hm.append_inj hm' h
  obtain ⟨rfl, rfl, -⟩ := hcar.append_inj (x := []) (y := []) hcar' (by rw [h])
  exact ⟨rfl, rfl⟩

end RecordPack
