import Iommu.Lib.Word
import Mathlib.Data.List.Pairwise

/-! Layouts of packed words.

A layout is the list of the fields that a word is packed from. When no two of them
meet, a word *holds* the layout exactly when it agrees with the packed word under
the mask of its fields (`holds_iff`), so packing and reading are each other's
inverse on those bits and the others are free. Fields that meet are read back
exactly when they agree where they do (`holds_pack_iff`). -/
namespace Iommu.Lib.Word

variable {w n : Nat}

/-- A field: where it starts, its width and its value. -/
structure Field where
  lo : Nat
  width : Nat
  value : BitVec width

/-- The word packed from the fields. -/
def pack (w : Nat) (L : List Field) : BitVec w := L.foldr (fun f x => place w f.lo f.value ||| x) 0#w

/-- The bits of a word that the fields cover. -/
def cover (w : Nat) (L : List Field) : BitVec w := L.foldr (fun f m => mask w f.lo f.width ||| m) 0#w

/-- Every field of the layout is read back from the word. -/
def Holds (L : List Field) (x : BitVec w) : Prop := ∀ f ∈ L, x.extractLsb' f.lo f.width = f.value

/-- Neither field reaches into the other. -/
def Apart (f g : Nat × Nat) : Prop := f.1 + f.2 ≤ g.1 ∨ g.1 + g.2 ≤ f.1

instance (f g : Nat × Nat) : Decidable (Apart f g) := instDecidableOr

/-- Where the fields lie, without their values. -/
def extents (L : List Field) : List (Nat × Nat) := L.map fun f => (f.lo, f.width)

/-- No two fields meet and none reaches past the word. -/
def Fitting (w : Nat) (E : List (Nat × Nat)) : Prop := E.Pairwise Apart ∧ ∀ f ∈ E, f.1 + f.2 ≤ w

instance (E : List (Nat × Nat)) : Decidable (Fitting w E) := instDecidableAnd

theorem pack_nil : pack w [] = 0#w := rfl

theorem pack_cons (f : Field) (L : List Field) : pack w (f :: L) = place w f.lo f.value ||| pack w L := rfl

theorem pack_append (L M : List Field) : pack w (L ++ M) = pack w L ||| pack w M := by
  induction L with
  | nil => exact BitVec.zero_or.symm
  | cons f L ih => rw [List.cons_append, pack_cons, pack_cons, ih, BitVec.or_assoc]

theorem holds_cons (f : Field) (L : List Field) (x : BitVec w) :
    Holds (f :: L) x ↔ x.extractLsb' f.lo f.width = f.value ∧ Holds L x := List.forall_mem_cons

theorem holds_nil (x : BitVec w) : Holds [] x ↔ True :=
  iff_true_intro fun _ hf => absurd hf List.not_mem_nil

theorem holds_append (L M : List Field) (x : BitVec w) : Holds (L ++ M) x ↔ Holds L x ∧ Holds M x :=
  List.forall_mem_append

/-! ### Bits -/

theorem getLsbD_cover (L : List Field) (i : Nat) :
    (cover w L).getLsbD i = true ↔ i < w ∧ ∃ f ∈ L, f.lo ≤ i ∧ i < f.lo + f.width := by
  induction L with
  | nil => simp [cover]
  | cons f L ih =>
    have hcons : cover w (f :: L) = mask w f.lo f.width ||| cover w L := rfl
    rw [hcons, BitVec.getLsbD_or, Bool.or_eq_true, ih, getLsbD_mask]
    simp only [List.mem_cons, exists_eq_or_imp, Bool.and_eq_true, decide_eq_true_eq, and_assoc,
      ← and_or_left]

theorem slice_eq_iff (lo : Nat) (x y : BitVec w) :
    x.extractLsb' lo n = y.extractLsb' lo n ↔ ∀ i, lo ≤ i → i < lo + n → x.getLsbD i = y.getLsbD i := by
  constructor
  · intro h i hlo hi
    have hbit := congrArg (fun z : BitVec n => z.getLsbD (i - lo)) h
    have hin : i - lo < n := by omega
    have hsum : lo + (i - lo) = i := by omega
    simpa only [BitVec.getLsbD_extractLsb', hin, hsum, decide_true, Bool.true_and] using hbit
  · intro h
    apply BitVec.eq_of_getLsbD_eq
    intro i hi
    rw [BitVec.getLsbD_extractLsb', BitVec.getLsbD_extractLsb', h (lo + i) (by omega) (by omega)]

/-- Slices agree when their lower and their upper parts do. -/
theorem slice_split_iff {k : Nat} (x : BitVec w) (y : BitVec k) (a b n m : Nat) :
    x.extractLsb' a (n + m) = y.extractLsb' b (n + m) ↔
      x.extractLsb' a n = y.extractLsb' b n ∧ x.extractLsb' (a + n) m = y.extractLsb' (b + n) m := by
  constructor
  · intro h
    have hlow := congrArg (fun z : BitVec (n + m) => z.extractLsb' 0 n) h
    have hhigh := congrArg (fun z : BitVec (n + m) => z.extractLsb' n m) h
    simp only [slice_slice _ _ 0 (show 0 + n ≤ n + m by omega), Nat.add_zero] at hlow
    simp only [slice_slice _ _ n (Nat.le_refl (n + m))] at hhigh
    exact ⟨hlow, hhigh⟩
  · intro ⟨hlow, hhigh⟩
    apply BitVec.eq_of_getLsbD_eq
    intro i hi
    by_cases hn : i < n
    · have hbit := congrArg (fun z : BitVec n => z.getLsbD i) hlow
      simpa only [BitVec.getLsbD_extractLsb', hn, hi, decide_true, Bool.true_and] using hbit
    · have hbit := congrArg (fun z : BitVec m => z.getLsbD (i - n)) hhigh
      have hm : i - n < m := by omega
      have hx : a + n + (i - n) = a + i := by omega
      have hy : b + n + (i - n) = b + i := by omega
      simpa only [BitVec.getLsbD_extractLsb', hm, hx, hy, hi, decide_true, Bool.true_and] using hbit

/-- A put leaves a slice as it was exactly when its value agrees with the old word on
the bits that both are over. -/
theorem slice_put_eq_iff {m : Nat} (lo lo' a k : Nat) (v : BitVec n) (x : BitVec w) (ha : max lo lo' = a)
    (hk : min (lo + n) (lo' + m) = a + k) (hw : lo + n ≤ w) :
    (put lo v x).extractLsb' lo' m = x.extractLsb' lo' m ↔ v.extractLsb' (a - lo) k = x.extractLsb' a k := by
  rw [slice_eq_iff]
  constructor
  · intro h
    apply BitVec.eq_of_getLsbD_eq
    intro j hj
    have hbit := h (a + j) (by omega) (by omega)
    rw [getLsbD_put lo (a + j) v x (by omega), if_pos (by omega)] at hbit
    have hidx : a + j - lo = a - lo + j := by omega
    rw [BitVec.getLsbD_extractLsb', BitVec.getLsbD_extractLsb', ← hbit, hidx]
  · intro h i hlo hi
    by_cases hin : lo ≤ i ∧ i < lo + n
    · have hbit := congrArg (fun z : BitVec k => z.getLsbD (i - a)) h
      have hk : i - a < k := by omega
      have hv : a - lo + (i - a) = i - lo := by omega
      have hx : a + (i - a) = i := by omega
      simp only [BitVec.getLsbD_extractLsb', hk, hv, hx, decide_true, Bool.true_and] at hbit
      rw [getLsbD_put lo i v x (by omega), if_pos hin, hbit]
    · by_cases hiw : i < w
      · rw [getLsbD_put lo i v x hiw, if_neg hin]
      · rw [BitVec.getLsbD_of_ge _ i (by omega), BitVec.getLsbD_of_ge _ i (by omega)]

theorem and_eq_iff (m x y : BitVec w) :
    x &&& m = y &&& m ↔ ∀ i, m.getLsbD i = true → x.getLsbD i = y.getLsbD i := by
  constructor
  · intro h i hm
    have hbit := congrArg (fun z : BitVec w => z.getLsbD i) h
    simpa only [BitVec.getLsbD_and, hm, Bool.and_true] using hbit
  · intro h
    apply BitVec.eq_of_getLsbD_eq
    intro i _
    cases hm : m.getLsbD i
    · simp only [BitVec.getLsbD_and, hm, Bool.and_false]
    · simp only [BitVec.getLsbD_and, hm, h i hm]

/-! ### Fields that meet -/

/-- The fields have the same bits where they meet. -/
def Agree (f g : Field) : Prop := ∀ i, f.lo ≤ i → i < f.lo + f.width → g.lo ≤ i → i < g.lo + g.width →
  f.value.getLsbD (i - f.lo) = g.value.getLsbD (i - g.lo)

instance : Std.Symm Agree := ⟨fun _ _ h i hg hg' hf hf' => (h i hf hf' hg hg').symm⟩

theorem agree_of_apart {lo lo' k : Nat} (v : BitVec n) (u : BitVec k) (h : lo + n ≤ lo' ∨ lo' + k ≤ lo) :
    Agree ⟨lo, n, v⟩ ⟨lo', k, u⟩ ↔ True :=
  iff_true_intro fun i (hlo : lo ≤ i) (hi : i < lo + n) (hlo' : lo' ≤ i) (hi' : i < lo' + k) => by omega

/-- A field within another one. -/
theorem agree_inner {lo lo' k : Nat} (d : Nat) (v : BitVec n) (u : BitVec k) (hlo : lo + d = lo') (hd : d + k ≤ n) :
    Agree ⟨lo, n, v⟩ ⟨lo', k, u⟩ ↔ v.extractLsb' d k = u := by
  subst hlo
  constructor
  · intro h
    apply BitVec.eq_of_getLsbD_eq
    intro j hj
    have hbit : v.getLsbD (lo + d + j - lo) = u.getLsbD (lo + d + j - (lo + d)) :=
      h (lo + d + j) (by show lo ≤ _; omega) (by show _ < lo + n; omega) (by show lo + d ≤ _; omega)
        (by show _ < lo + d + k; omega)
    have hv : lo + d + j - lo = d + j := by omega
    rw [hv, Nat.add_sub_cancel_left] at hbit
    simp only [BitVec.getLsbD_extractLsb', hj, hbit, decide_true, Bool.true_and]
  · rintro rfl i hlo - hlo' hi'
    have hlo : lo + d ≤ i := hlo'
    have hi : i < lo + d + k := hi'
    have hk : i - (lo + d) < k := by omega
    have hv : d + (i - (lo + d)) = i - lo := by omega
    simp only [BitVec.getLsbD_extractLsb', hk, hv, decide_true, Bool.true_and]

theorem getLsbD_pack (L : List Field) {i : Nat} (hi : i < w) :
    (pack w L).getLsbD i = true ↔ ∃ f ∈ L, f.lo ≤ i ∧ f.value.getLsbD (i - f.lo) = true := by
  induction L with
  | nil => simp [pack_nil]
  | cons f L ih =>
    rw [pack_cons, BitVec.getLsbD_or, Bool.or_eq_true, ih, getLsbD_place]
    simp only [hi, decide_true, Bool.true_and, Bool.and_eq_true, decide_eq_true_eq, List.mem_cons, exists_eq_or_imp]

/-- **What a packed word holds**: its layout, exactly when its fields agree where they meet. -/
theorem holds_pack_iff {L : List Field} (h : ∀ f ∈ L, f.lo + f.width ≤ w) :
    Holds L (pack w L) ↔ L.Pairwise Agree := by
  constructor
  · intro hholds
    have hbit : ∀ f ∈ L, ∀ i, f.lo ≤ i → i < f.lo + f.width →
        (pack w L).getLsbD i = f.value.getLsbD (i - f.lo) := by
      intro f hf i hlo hi
      have hslice := congrArg (fun z : BitVec f.width => z.getLsbD (i - f.lo)) (hholds f hf)
      have hin : i - f.lo < f.width := by omega
      have hsum : f.lo + (i - f.lo) = i := by omega
      simpa only [BitVec.getLsbD_extractLsb', hin, hsum, decide_true, Bool.true_and] using hslice
    refine List.pairwise_of_forall_mem_list fun f hf g hg i hlo hi hlo' hi' => ?_
    rw [← hbit f hf i hlo hi, hbit g hg i hlo' hi']
  · intro hagree f hf
    apply BitVec.eq_of_getLsbD_eq
    intro j hj
    have hfit := h f hf
    have hsum : f.lo + j - f.lo = j := by omega
    rw [BitVec.getLsbD_extractLsb', decide_eq_true hj, Bool.true_and, Bool.eq_iff_iff,
      getLsbD_pack L (show f.lo + j < w by omega)]
    constructor
    · rintro ⟨g, hg, hlo, hbit⟩
      have hin : f.lo + j - g.lo < g.width := BitVec.lt_of_getLsbD hbit
      have hsame := hagree.forall_of_forall (fun _ _ _ _ _ _ _ => rfl) hf hg
        (f.lo + j) (by omega) (by omega) hlo (by omega)
      rw [hsum] at hsame
      rw [hsame, hbit]
    · intro hbit
      exact ⟨f, hf, by omega, by rw [hsum, hbit]⟩

/-! ### Packing and reading -/

/-- A packed word has no bit outside its fields. -/
theorem pack_and_cover (L : List Field) : pack w L &&& cover w L = pack w L := by
  induction L with
  | nil => exact BitVec.zero_and
  | cons f L ih =>
    have hcons : cover w (f :: L) = mask w f.lo f.width ||| cover w L := rfl
    apply BitVec.eq_of_getLsbD_eq
    intro i hi
    have hrest := congrArg (fun z : BitVec w => z.getLsbD i) ih
    simp only [BitVec.getLsbD_and] at hrest
    simp only [hcons, pack_cons, BitVec.getLsbD_and, BitVec.getLsbD_or, getLsbD_place, getLsbD_mask]
    by_cases hin : i < f.lo + f.width
    · cases hp : (pack w L).getLsbD i <;> simp_all
    · have hout : f.value.getLsbD (i - f.lo) = false := BitVec.getLsbD_of_ge _ (i - f.lo) (by omega)
      cases hp : (pack w L).getLsbD i <;> simp_all

/-- **A packed word holds its layout.** -/
theorem holds_pack {L : List Field} (h : Fitting w (extents L)) : Holds L (pack w L) := by
  obtain ⟨hpair, hw⟩ := h
  refine (holds_pack_iff fun f hf => hw _ (List.mem_map_of_mem hf)).mpr ?_
  exact (List.pairwise_map.mp hpair).imp fun hapart => (agree_of_apart _ _ hapart).mpr trivial

/-- A word holds one layout of its extents. -/
theorem holds_unique {L M : List Field} (hext : extents L = extents M) {x : BitVec w} (hL : Holds L x)
    (hM : Holds M x) : L = M := by
  induction L generalizing M with
  | nil => exact (List.map_eq_nil_iff.mp hext.symm).symm
  | cons f L ih =>
    cases M with
    | nil => exact absurd hext (List.cons_ne_nil _ _)
    | cons g M =>
      obtain ⟨hhead, htail⟩ := List.cons.inj hext
      obtain ⟨hf, hfs⟩ := (holds_cons f L x).mp hL
      obtain ⟨hg, hgs⟩ := (holds_cons g M x).mp hM
      obtain ⟨lo, n, v⟩ := f
      obtain ⟨lo', n', v'⟩ := g
      obtain ⟨rfl, rfl⟩ := Prod.mk.inj hhead
      have hvalue : v = v' := hf.symm.trans hg
      rw [ih htail hfs hgs, hvalue]

/-- Words packed by the same extents are equal when their layouts are. -/
theorem pack_eq_iff {L M : List Field} (hext : extents L = extents M) (h : Fitting w (extents L)) :
    pack w L = pack w M ↔ L = M := by
  constructor
  · intro heq
    have hL := holds_pack h
    have hM := holds_pack (hext ▸ h)
    rw [heq] at hL
    exact holds_unique hext hL hM
  · exact congrArg (pack w)

/-- **Holding a layout is being its packed word, under the mask of its fields.** -/
theorem holds_iff {L : List Field} (h : Fitting w (extents L)) (x : BitVec w) :
    Holds L x ↔ x &&& cover w L = pack w L := by
  have hpack := holds_pack h
  have hsame : Holds L x ↔ x &&& cover w L = pack w L &&& cover w L := by
    simp only [and_eq_iff, getLsbD_cover]
    constructor
    · intro hx i ⟨_, f, hf, hlo, hi⟩
      exact (slice_eq_iff f.lo x (pack w L)).mp ((hx f hf).trans (hpack f hf).symm) i hlo hi
    · intro hx f hf
      rw [← hpack f hf, slice_eq_iff]
      intro i hlo hi
      have := h.2 (f.lo, f.width) (List.mem_map_of_mem hf)
      exact hx i ⟨by omega, f, hf, hlo, hi⟩
  rw [hsame, pack_and_cover]

/-- A layout that a word holds is packed to the word under its mask. -/
theorem pack_of_holds {L : List Field} (h : Fitting w (extents L)) {m x : BitVec w} (hm : cover w L = m)
    (hx : Holds L x) : pack w L = x &&& m := by
  rw [← hm, (holds_iff h x).mp hx]

/-- Flipping a bit is seen exactly by a layout with a field over it. -/
theorem holds_flip_iff {L : List Field} (h : Fitting w (extents L)) {x : BitVec w} (hx : Holds L x)
    {i : Nat} (hi : i < w) : Holds L (x ^^^ BitVec.twoPow w i) ↔ (cover w L).getLsbD i = false := by
  rw [holds_iff h, ← (holds_iff h x).mp hx, and_eq_iff]
  constructor
  · intro hall
    cases hm : (cover w L).getLsbD i
    · rfl
    · have := hall i hm
      simp [hi] at this
  · intro hm j hj
    have hij : ¬i = j := fun he => by
      rw [he, hj] at hm
      exact absurd hm (by decide)
    simp [hij]

/-! ### Fields of a decoded value -/

/-- A field decoded to a wider type is the encoded one: it fits, and the slices agree. -/
theorem setWidth_eq_iff (v : BitVec n) (x : BitVec w) (h : n ≤ w) :
    v.setWidth w = x ↔ x.toNat < 2 ^ n ∧ v = x.extractLsb' 0 n := by
  constructor
  · rintro rfl
    refine ⟨?_, ?_⟩
    · rw [BitVec.toNat_setWidth_of_le h]
      exact v.isLt
    · rw [← setWidth_shift, BitVec.ushiftRight_zero, BitVec.setWidth_setWidth_of_le v h, BitVec.setWidth_eq]
  · intro ⟨hlt, hv⟩
    apply BitVec.eq_of_toNat_eq
    rw [hv, BitVec.toNat_setWidth_of_le h, BitVec.extractLsb'_toNat, Nat.shiftRight_zero,
      Nat.mod_eq_of_lt hlt]

/-- The same for a field that is placed, as an aligned address is. -/
theorem place_eq_iff_of_fits (lo : Nat) (v : BitVec n) (x : BitVec w) (h : lo + n ≤ w) :
    place w lo v = x ↔ x.toNat % 2 ^ lo = 0 ∧ x.toNat < 2 ^ (lo + n) ∧ v = x.extractLsb' lo n := by
  constructor
  · rintro rfl
    refine ⟨?_, ?_, ?_⟩
    · rw [toNat_place lo v h, Nat.mul_mod_left]
    · rw [toNat_place lo v h, Nat.pow_add, Nat.mul_comm (2 ^ lo)]
      exact Nat.mul_lt_mul_of_pos_right v.isLt (Nat.two_pow_pos lo)
    · rw [slice_place lo v h]
  · intro ⟨hmod, hfits, hv⟩
    have hlt : x.toNat / 2 ^ lo < 2 ^ n := by
      apply Nat.div_lt_of_lt_mul
      rw [← Nat.pow_add]
      exact hfits
    apply BitVec.eq_of_toNat_eq
    rw [hv, toNat_place lo _ h, BitVec.extractLsb'_toNat, Nat.shiftRight_eq_div_pow,
      Nat.mod_eq_of_lt hlt, Nat.div_mul_cancel (Nat.dvd_of_mod_eq_zero hmod)]

/-- A word is what is left of it under a field's mask when it has no other bits. -/
theorem and_mask_eq_self_iff (lo : Nat) (x : BitVec w) (h : lo + n ≤ w) :
    x &&& mask w lo n = x ↔ x.toNat % 2 ^ lo = 0 ∧ x.toNat < 2 ^ (lo + n) := by
  rw [and_mask, place_eq_iff_of_fits lo _ x h]
  exact and_congr_right' (and_iff_left rfl)

/-- The same for a field that is the top of its word. -/
theorem place_eq_iff (lo : Nat) (v : BitVec n) (x : BitVec w) (h : lo + n = w) :
    place w lo v = x ↔ x.toNat % 2 ^ lo = 0 ∧ v = x.extractLsb' lo n := by
  have htop : x.toNat < 2 ^ (lo + n) := h ▸ x.isLt
  rw [place_eq_iff_of_fits lo v x (Nat.le_of_eq h), and_iff_right htop]

end Iommu.Lib.Word
