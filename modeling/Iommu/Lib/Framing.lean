import Iommu.Lib.Exec

/-! Iterators over length-prefixed frames.

Bytes are *tiled* by frames when they are whole frames, one after another, and then
a tail that no frame can be cut from. Every byte string is (`exists_tiles`), and an
iterator that cuts frames off its bytes yields exactly the tiles, in order, and then
nothing for ever (`Cuts.yields`). -/
namespace Iommu.Lib

/-! ### Iterators -/

section Iterator
variable {σ α : Type} (next : σ → Exec (Option α × σ))

/-- What the first `n` calls return. -/
def calls : Nat → σ → Exec (List (Option α))
  | 0, _ => return []
  | n + 1, s => do
    let (item, s') ← next s
    let items ← calls n s'
    return item :: items

/-- However often it is called: first the items, in order, and from then on nothing. -/
def Yields (s : σ) (items : List α) : Prop :=
  ∀ n, calls next n s = .returns ((items.take n).map some ++ List.replicate (n - items.length) none)

variable {next}

theorem yields_nil {s : σ} (h : next s = .returns (none, s)) : Yields next s [] := by
  intro n
  rw [List.take_nil, List.map_nil, List.nil_append, List.length_nil, Nat.sub_zero]
  induction n with
  | zero => rfl
  | succ n ih =>
    rw [calls, h, Exec.returns_bind]
    show (calls next n s >>= _) = _
    rw [ih, List.replicate_succ]
    rfl

theorem yields_cons {s s' : σ} {item : α} {items : List α} (h : next s = .returns (some item, s'))
    (hs : Yields next s' items) : Yields next s (item :: items) := by
  intro n
  cases n with
  | zero => rw [Nat.zero_sub]; rfl
  | succ n =>
    rw [calls, h, Exec.returns_bind]
    show (calls next n s' >>= _) = _
    rw [hs n, Exec.returns_bind, List.length_cons, Nat.add_sub_add_right]
    rfl

theorem items_succ (items : List α) (n : Nat) :
    (items.take (n + 1)).map some ++ List.replicate (n + 1 - items.length) none =
      items.head? :: ((items.tail.take n).map some ++ List.replicate (n - items.tail.length) none) := by
  cases items with
  | nil => simp [List.replicate_succ]
  | cons item items => simp

/-- An iterator yields items when its first call returns the first of them and it
yields the others from there. -/
theorem yields_iff {s : σ} {items : List α} :
    Yields next s items ↔ ∃ s', next s = .returns (items.head?, s') ∧ Yields next s' items.tail := by
  constructor
  · intro h
    have hcalls : ∀ n, ∃ s', next s = .returns (items.head?, s') ∧ calls next n s' =
        .returns ((items.tail.take n).map some ++ List.replicate (n - items.tail.length) none) := by
      intro n
      have hn := h (n + 1)
      rw [items_succ, calls, Exec.bind_eq_returns] at hn
      obtain ⟨⟨item, s'⟩, hnext, hn⟩ := hn
      obtain ⟨found, hfound, hn⟩ := Exec.bind_eq_returns.mp hn
      cases hn
      exact ⟨s', hnext, hfound⟩
    obtain ⟨s', hs, -⟩ := hcalls 0
    refine ⟨s', hs, fun n => ?_⟩
    obtain ⟨s'', hs', hn⟩ := hcalls n
    cases hs.symm.trans hs'
    exact hn
  · rintro ⟨s', hnext, hs⟩ n
    cases n with
    | zero => rw [Nat.zero_sub]; rfl
    | succ n =>
      rw [items_succ, calls, hnext, Exec.returns_bind]
      show (calls next n s' >>= _) = _
      rw [hs n, Exec.returns_bind, Exec.pure_eq]

/-- It yields one list of items only. -/
theorem yields_unique {s : σ} {items items' : List α} (h : Yields next s items)
    (h' : Yields next s items') : items = items' := by
  induction items generalizing s items' with
  | nil =>
    obtain ⟨_, hnext, -⟩ := yields_iff.mp h
    obtain ⟨_, hnext', -⟩ := yields_iff.mp h'
    cases items' with
    | nil => rfl
    | cons => cases hnext.symm.trans hnext'
  | cons item items ih =>
    obtain ⟨_, hnext, hs⟩ := yields_iff.mp h
    obtain ⟨_, hnext', hs'⟩ := yields_iff.mp h'
    cases items' with
    | nil => cases hnext.symm.trans hnext'
    | cons item' items' =>
      cases hnext.symm.trans hnext'
      exact congrArg (item :: ·) (ih hs hs')

end Iterator

/-! ### Frames -/

/-- Frames of symbols that carry their own length in a header. -/
structure Framing (β : Type) where
  /-- The size of the header, and of the least frame. -/
  header : Nat
  /-- The length that the header gives. -/
  length : List β → Nat
  header_pos : 0 < header
  length_append : ∀ f rest, header ≤ f.length → length (f ++ rest) = length f

namespace Framing
variable {β : Type} (F : Framing β)

structure Whole (f : List β) : Prop where
  header_le : F.header ≤ f.length
  length_eq : F.length f = f.length

/-- No frame can be cut: the header is cut short, or the length it gives is less than
the header or more than there is. -/
def Stuck (bs : List β) : Prop :=
  bs.length < F.header ∨ F.length bs < F.header ∨ bs.length < F.length bs

structure Tiles (bs : List β) (frames : List (List β)) (tail : List β) : Prop where
  bytes : frames.flatten ++ tail = bs
  whole : ∀ f ∈ frames, F.Whole f
  stuck : F.Stuck tail

/-- Whole frames, one after another, and nothing else. -/
def Framed (bs : List β) : Prop := ∃ frames : List (List β), (∀ f ∈ frames, F.Whole f) ∧ frames.flatten = bs

theorem tiles_nil {bs : List β} (h : F.Stuck bs) : F.Tiles bs [] bs where
  bytes := rfl
  whole _ hf := absurd hf List.not_mem_nil
  stuck := h

theorem tiles_cons {f bs : List β} {frames : List (List β)} {tail : List β} (hf : F.Whole f)
    (h : F.Tiles bs frames tail) : F.Tiles (f ++ bs) (f :: frames) tail where
  bytes := by rw [List.flatten_cons, List.append_assoc, h.bytes]
  whole := List.forall_mem_cons.mpr ⟨hf, h.whole⟩
  stuck := h.stuck

/-- To show something of tiled bytes: of the tail, and of one more frame in front. -/
theorem Tiles.induct {F : Framing β} {tail : List β} {motive : ∀ bs frames, F.Tiles bs frames tail → Prop}
    (nil : ∀ hstuck, motive tail [] (F.tiles_nil hstuck))
    (cons : ∀ f bs frames hf h, motive bs frames h → motive (f ++ bs) (f :: frames) (F.tiles_cons hf h))
    {bs : List β} {frames : List (List β)} (h : F.Tiles bs frames tail) : motive bs frames h := by
  obtain ⟨rfl, hwhole, hstuck⟩ := h
  induction frames with
  | nil => exact nil hstuck
  | cons f frames ih =>
    obtain ⟨hf, hframes⟩ := List.forall_mem_cons.mp hwhole
    simp only [List.flatten_cons, List.append_assoc]
    exact cons f _ frames hf ⟨rfl, hframes, hstuck⟩ (ih hframes)

/-- Where a frame can be cut, the bytes start with a whole one. -/
theorem whole_of_not_stuck {bs : List β} (h : ¬F.Stuck bs) :
    F.Whole (bs.take (F.length bs)) ∧ bs.take (F.length bs) ++ bs.drop (F.length bs) = bs := by
  have hlen : (bs.take (F.length bs)).length = F.length bs := by
    rw [List.length_take]
    unfold Stuck at h
    omega
  have hheader : F.header ≤ (bs.take (F.length bs)).length := by
    unfold Stuck at h
    omega
  have hsplit := List.take_append_drop (F.length bs) bs
  refine ⟨⟨hheader, ?_⟩, hsplit⟩
  have happ := F.length_append (bs.take (F.length bs)) (bs.drop (F.length bs)) hheader
  rw [hsplit] at happ
  rw [← happ, hlen]

theorem exists_tiles (bs : List β) : ∃ frames tail, F.Tiles bs frames tail := by
  induction hn : bs.length using Nat.strongRecOn generalizing bs with
  | ind n ih =>
    by_cases hstuck : F.Stuck bs
    · exact ⟨[], bs, F.tiles_nil hstuck⟩
    · obtain ⟨hwhole, hsplit⟩ := F.whole_of_not_stuck hstuck
      have hpos := F.header_pos
      have hless : (bs.drop (F.length bs)).length < n := by
        have := hwhole.header_le
        rw [List.length_take] at this
        rw [List.length_drop]
        omega
      obtain ⟨frames, tail, htiles⟩ := ih _ hless (bs.drop (F.length bs)) rfl
      have := F.tiles_cons hwhole htiles
      rw [hsplit] at this
      exact ⟨_, _, this⟩

/-- An iterator over bytes that cuts a frame off whenever it can. -/
structure Cuts {σ α : Type} (next : σ → Exec (Option α × σ)) (state : List β → σ) (item : List β → α) :
    Prop where
  stuck : ∀ bs, F.Stuck bs → next (state bs) = .returns (none, state bs)
  cut : ∀ f rest, F.Whole f → next (state (f ++ rest)) = .returns (some (item f), state rest)

theorem Whole.length_append {F : Framing β} {f : List β} (h : F.Whole f) (rest : List β) :
    F.length (f ++ rest) = f.length := (F.length_append f rest h.header_le).trans h.length_eq

theorem Whole.not_stuck {F : Framing β} {f : List β} (h : F.Whole f) (rest : List β) :
    ¬F.Stuck (f ++ rest) := by
  have := h.header_le
  rw [Stuck, h.length_append rest, List.length_append]
  omega

/-- Bytes from which no frame can be cut are whole frames only where there are none. -/
theorem Stuck.not_framed {F : Framing β} {bs : List β} (h : F.Stuck bs) (hne : bs ≠ []) : ¬F.Framed bs := by
  rintro ⟨frames, hwhole, rfl⟩
  cases frames with
  | nil => exact hne rfl
  | cons f frames => exact (hwhole f List.mem_cons_self).not_stuck frames.flatten h

/-- Bytes are tiled in one way only. -/
theorem tiles_unique {F : Framing β} {bs : List β} {frames frames' : List (List β)} {tail tail' : List β}
    (h : F.Tiles bs frames tail) (h' : F.Tiles bs frames' tail') : frames = frames' ∧ tail = tail' := by
  induction frames generalizing bs frames' with
  | nil =>
    obtain rfl : tail = bs := h.bytes
    cases frames' with
    | nil => exact ⟨rfl, h'.bytes.symm⟩
    | cons g frames' =>
      have hg := (h'.whole g List.mem_cons_self).not_stuck (frames'.flatten ++ tail')
      rw [← List.append_assoc, ← List.flatten_cons, h'.bytes] at hg
      exact absurd h.stuck hg
  | cons f frames ih =>
    obtain ⟨hf, hframes⟩ := List.forall_mem_cons.mp h.whole
    have hbytes : f ++ (frames.flatten ++ tail) = bs := by
      rw [← h.bytes, List.flatten_cons, List.append_assoc]
    cases frames' with
    | nil =>
      obtain rfl : tail' = bs := h'.bytes
      rw [← hbytes] at h'
      exact absurd h'.stuck (hf.not_stuck _)
    | cons g frames' =>
      obtain ⟨hg, hframes'⟩ := List.forall_mem_cons.mp h'.whole
      have hbytes' : g ++ (frames'.flatten ++ tail') = bs := by
        rw [← h'.bytes, List.flatten_cons, List.append_assoc]
      have hlen : f.length = g.length := by
        rw [← hf.length_append (frames.flatten ++ tail), hbytes, ← hbytes', hg.length_append]
      obtain ⟨rfl, hrest⟩ := List.append_inj (hbytes.trans hbytes'.symm) hlen
      obtain ⟨rfl, rfl⟩ := ih ⟨rfl, hframes, h.stuck⟩ ⟨hrest.symm, hframes', h'.stuck⟩
      exact ⟨rfl, rfl⟩

variable {F} {σ α : Type} {next : σ → Exec (Option α × σ)} {state : List β → σ} {item : List β → α}

/-- It is enough to know its step by what can be cut off. -/
theorem Cuts.of_step (hstuck : ∀ bs, F.Stuck bs → next (state bs) = .returns (none, state bs))
    (hcut : ∀ bs, ¬F.Stuck bs → next (state bs) =
      .returns (some (item (bs.take (F.length bs))), state (bs.drop (F.length bs)))) :
    F.Cuts next state item where
  stuck := hstuck
  cut f rest hf := by
    rw [hcut _ (hf.not_stuck rest), hf.length_append rest, List.take_left, List.drop_left]

/-- **Such an iterator yields the tiles of its bytes.** -/
theorem Cuts.yields (h : F.Cuts next state item) {bs : List β} {frames : List (List β)} {tail : List β}
    (htiles : F.Tiles bs frames tail) : Yields next (state bs) (frames.map item) := by
  induction htiles using Tiles.induct with
  | nil hstuck => exact yields_nil (h.stuck tail hstuck)
  | cons f bs frames hf _ ih => exact yields_cons (h.cut f bs hf) ih

/-- Nothing is left of bytes that are whole frames. -/
theorem tiles_whole {F : Framing β} {frames : List (List β)} (h : ∀ f ∈ frames, F.Whole f) :
    F.Tiles frames.flatten frames [] where
  bytes := List.append_nil _
  whole := h
  stuck := .inl F.header_pos

/-- Items that keep the bytes of their frames are the frames, one after another. -/
theorem flatMap_items {raw : α → List β} (hraw : ∀ f, raw (item f) = f) (frames : List (List β)) :
    (frames.map item).flatMap raw = frames.flatten := by
  rw [List.flatMap_map]
  simp only [hraw, List.flatMap_id']

/-- **It reaches the end of the bytes** exactly when they are whole frames, one after another. -/
theorem Cuts.consumes_iff (h : F.Cuts next state item) {raw : α → List β} (hraw : ∀ f, raw (item f) = f)
    (bs : List β) : (∃ items, Yields next (state bs) items ∧ items.flatMap raw = bs) ↔
      F.Framed bs := by
  constructor
  · rintro ⟨items, hitems, hbytes⟩
    obtain ⟨frames, tail, htiles⟩ := F.exists_tiles bs
    rw [yields_unique hitems (h.yields htiles), flatMap_items hraw] at hbytes
    exact ⟨frames, htiles.whole, hbytes⟩
  · rintro ⟨frames, hwhole, rfl⟩
    exact ⟨frames.map item, h.yields (tiles_whole hwhole), flatMap_items hraw frames⟩

end Framing
end Iommu.Lib
