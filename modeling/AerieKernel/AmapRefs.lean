import AerieKernel.AmapModel

/-!
# The references of an amap are counted per page

Every call keeps an amap and the references on it in agreement: `am_ref` is their number, the
array `am_ppref` is a tiling of the slots by chunks whose counts are the numbers of references
that cover them, slots without a reference are empty, and `am_slots` and `am_bckptr` index the
anons.
-/

namespace AerieKernel.Uvm

open Function List

/-! ## The index of the anons -/

/-- `am_slots` lists exactly the slots with an anon, and `am_bckptr` is its inverse. -/
structure Overlay.Ok (o : Overlay) : Prop where
  listed : ∀ i < o.nused, (o.anon (o.slots i)).isSome ∧ o.bckptr (o.slots i) = i
  back : ∀ s, (o.anon s).isSome → o.bckptr s < o.nused ∧ o.slots (o.bckptr s) = s

theorem Overlay.empty_ok : Overlay.empty.Ok :=
  ⟨fun i hi => absurd hi (Nat.not_lt_zero i), fun s hs => by simp [Overlay.empty] at hs⟩

variable {o : Overlay} {slot anon : ℕ}

theorem Overlay.Ok.insert (h : o.Ok) (hfree : o.anon slot = none) : (o.insert slot anon).Ok := by
  constructor
  · intro i hi
    by_cases heq : i = o.nused
    · simp [Overlay.insert, heq]
    · have hlisted := h.listed i (by simp only [Overlay.insert] at hi; omega)
      have hne : o.slots i ≠ slot := by
        intro hslot
        simp [hslot, hfree] at hlisted
      simpa [Overlay.insert, heq, hne] using hlisted
  · intro s hs
    by_cases heq : s = slot
    · simp [Overlay.insert, heq]
    · have hback := h.back s (by simpa [Overlay.insert, heq] using hs)
      have hne : o.bckptr s ≠ o.nused := by omega
      simp only [Overlay.insert, update_of_ne heq, update_of_ne hne]
      exact ⟨by omega, hback.2⟩

theorem Overlay.remove_anon (o : Overlay) (slot : ℕ) :
    (o.remove slot).anon = update o.anon slot none := by
  simp only [Overlay.remove]
  split <;> rfl

theorem Overlay.Ok.remove_eq (h : o.Ok) (hused : (o.anon slot).isSome) :
    o.remove slot = ⟨o.nused - 1, update o.slots (o.bckptr slot) (o.slots (o.nused - 1)),
      update o.bckptr (o.slots (o.nused - 1)) (o.bckptr slot), update o.anon slot none⟩ := by
  simp only [Overlay.remove, ite_not]
  split
  next heq =>
    have hslot := (h.back slot hused).2
    rw [heq] at hslot
    have hslots : update o.slots (o.nused - 1) slot = o.slots := update_eq_self_iff.mpr hslot.symm
    have hbckptr : update o.bckptr slot (o.nused - 1) = o.bckptr := update_eq_self_iff.mpr heq.symm
    rw [heq, hslot, hslots, hbckptr]
  next => rfl

theorem Overlay.Ok.remove (h : o.Ok) (hused : (o.anon slot).isSome) : (o.remove slot).Ok := by
  obtain ⟨hptr, hslot⟩ := h.back slot hused
  have hlast := h.listed (o.nused - 1) (by omega)
  rw [h.remove_eq hused]
  constructor
  · intro i hi
    simp only at hi ⊢
    by_cases hi' : i = o.bckptr slot
    · have hother : o.slots (o.nused - 1) ≠ slot := by
        intro hs
        rw [hs] at hlast
        omega
      subst hi'
      simpa [hother] using hlast.1
    · have hlisted := h.listed i (by omega)
      have hne : o.slots i ≠ slot := by
        intro hs
        rw [hs] at hlisted
        omega
      have hne' : o.slots i ≠ o.slots (o.nused - 1) := by
        intro hs
        rw [hs] at hlisted
        omega
      simpa [hi', hne, hne'] using hlisted
  · intro s hs
    have hne : s ≠ slot := by
      rintro rfl
      simp at hs
    have hback := h.back s (by simpa [hne] using hs)
    have hptr' : o.bckptr s ≠ o.bckptr slot := by
      intro hb
      rw [hb, hslot] at hback
      exact hne hback.2.symm
    by_cases hs' : s = o.slots (o.nused - 1)
    · subst hs'
      simp only [update_self]
      exact ⟨by omega, trivial⟩
    · have hlast' : o.bckptr s ≠ o.nused - 1 := by
        intro hb
        rw [hb] at hback
        exact hs' hback.2.symm
      simp only [update_of_ne hs', update_of_ne hptr']
      exact ⟨by omega, hback.2⟩

structure Wiped (range : ℕ → Prop) (o after : Overlay) : Prop where
  ok : after.Ok
  wiped : ∀ s, range s → after.anon s = none
  kept : ∀ s, ¬ range s → after.anon s = o.anon s

theorem wipeByAnon_wiped (n : ℕ) {o : Overlay} (h : o.Ok) (lcv : ℕ) :
    Wiped (fun s => lcv ≤ s ∧ s < lcv + n) o (wipeByAnon n o lcv) := by
  induction n generalizing o lcv with
  | zero => exact ⟨h, fun s hs => by omega, fun s _ => rfl⟩
  | succ n ih =>
    have hhead : Wiped (fun s => s = lcv) o (if (o.anon lcv).isNone then o else o.remove lcv) := by
      split
      next hnone => exact ⟨h, fun s hs => by simpa [hs] using hnone, fun s _ => rfl⟩
      next hsome =>
        refine ⟨h.remove (by simpa [Option.isSome_iff_ne_none] using hsome), ?_, ?_⟩
        · rintro s rfl
          simp [Overlay.remove_anon]
        · intro s hs
          simp [Overlay.remove_anon, hs]
    have htail := ih hhead.ok (lcv + 1)
    refine ⟨htail.ok, ?_, ?_⟩
    · intro s hs
      by_cases heq : s = lcv
      · rw [wipeByAnon, htail.kept s (by omega), hhead.wiped s heq]
      · exact htail.wiped s (by omega)
    · intro s hs
      rw [wipeByAnon, htail.kept s (by omega), hhead.kept s (by omega)]

theorem wipeBySlots_wiped (slotoff slotend n : ℕ) {o : Overlay} (h : o.Ok) (lcv : ℕ)
    (hn : lcv + n = o.nused) (hbefore : ∀ i < lcv, ¬ (slotoff ≤ o.slots i ∧ o.slots i < slotend)) :
    Wiped (fun s => slotoff ≤ s ∧ s < slotend) o (wipeBySlots slotoff slotend n o lcv) := by
  induction n generalizing o lcv with
  | zero =>
    refine ⟨h, ?_, fun s _ => rfl⟩
    intro s hs
    by_contra hsome
    obtain ⟨hlt, hslot⟩ := h.back s (Option.isSome_iff_ne_none.mpr hsome)
    exact hbefore (o.bckptr s) (by omega) (by rwa [hslot])
  | succ n ih =>
    simp only [wipeBySlots]
    split
    next hout =>
      apply ih h (lcv + 1) (by omega)
      intro i hi
      by_cases heq : i = lcv
      · subst heq
        omega
      · exact hbefore i (by omega)
    next hin =>
      obtain ⟨hused, hback⟩ := h.listed lcv (by omega)
      have htail := ih (h.remove hused) lcv
        (by simp only [Overlay.remove]; split <;> dsimp only <;> omega) (by
        intro i hi
        have hslots : (o.remove (o.slots lcv)).slots i = o.slots i := by
          simp only [Overlay.remove]
          split
          · exact update_of_ne (by omega) _ _
          · rfl
        rw [hslots]
        exact hbefore i hi)
      refine ⟨htail.ok, htail.wiped, ?_⟩
      intro s hs
      have hne : s ≠ o.slots lcv := by
        rintro rfl
        omega
      rw [htail.kept s hs, Overlay.remove_anon, update_of_ne hne]

theorem amapWiperange_wiped (h : o.Ok) (slotoff slots : ℕ) :
    Wiped (fun s => slotoff ≤ s ∧ s < slotoff + slots) o (amapWiperange o slotoff slots) := by
  simp only [amapWiperange]
  split
  · exact wipeByAnon_wiped slots h slotoff
  · exact wipeBySlots_wiped _ _ _ h 0 (Nat.zero_add _) (fun i hi => absurd hi (Nat.not_lt_zero i))

theorem copyAnons_spec (src : Overlay) (pageoff n : ℕ) :
    (copyAnons src pageoff n).Ok ∧
      ∀ s, (copyAnons src pageoff n).anon s = if s < n then src.anon (pageoff + s) else none := by
  induction n with
  | zero => exact ⟨Overlay.empty_ok, fun s => by simp [copyAnons, Overlay.empty]⟩
  | succ n ih =>
    obtain ⟨hok, hanon⟩ := ih
    have hfree : (copyAnons src pageoff n).anon n = none := by simp [hanon]
    simp only [copyAnons]
    split
    next hnone =>
      refine ⟨hok, fun s => ?_⟩
      rw [hanon]
      by_cases heq : s = n
      · simp [heq, hnone]
      · have hiff : s < n + 1 ↔ s < n := by omega
        simp [hiff]
    next anon hsome =>
      refine ⟨hok.insert hfree, fun s => ?_⟩
      by_cases heq : s = n
      · simp [Overlay.insert, heq, hsome]
      · have hiff : s < n + 1 ↔ s < n := by omega
        simp [Overlay.insert, heq, hanon, hiff]

theorem Overlay.Ok.enlarge (h : o.Ok) {nslot : ℕ} (hbeyond : ∀ s, nslot ≤ s → o.anon s = none) :
    (o.enlarge nslot).Ok ∧ (o.enlarge nslot).anon = o.anon := by
  have hanon : (o.enlarge nslot).anon = o.anon := by
    funext s
    by_cases hs : s < nslot
    · simp [Overlay.enlarge, hs]
    · simp [Overlay.enlarge, hs, hbeyond s (by omega)]
  have hlt : ∀ s, (o.anon s).isSome → s < nslot := by
    intro s hs
    by_contra hge
    simp [hbeyond s (by omega)] at hs
  refine ⟨⟨?_, ?_⟩, hanon⟩
  · intro i hi
    have hi' : i < o.nused := hi
    obtain ⟨hused, hback⟩ := h.listed i hi'
    simpa [Overlay.enlarge, hi', hlt _ hused] using ⟨hused, hback⟩
  · intro s hs
    rw [hanon] at hs
    obtain ⟨hptr, hslot⟩ := h.back s hs
    simpa [Overlay.enlarge, hlt s hs, hptr] using hslot

/-! ## Tilings by chunks -/

/-- The array has a chunk of `len` slots with the count `ref` at `a`. -/
def Chunk (p : ℕ → ℤ) (a ref len : ℕ) : Prop :=
  ppGetreflen p a = ((ref : ℤ), len) ∧ 0 < len ∧ (len = 1 → 0 < p a)

/-- Decoding the array from `a` on gives chunks that end at `b` and have the counts `c`. -/
inductive Tiles (p : ℕ → ℤ) (c : ℕ → ℕ) : ℕ → ℕ → Prop
  | nil (a : ℕ) : Tiles p c a a
  | chunk {a b ref len : ℕ} (hchunk : Chunk p a ref len)
      (hcount : ∀ s, a ≤ s → s < a + len → c s = ref) (hrest : Tiles p c (a + len) b) :
      Tiles p c a b

variable {p p' : ℕ → ℤ} {c c' : ℕ → ℕ} {a b ref len : ℕ}

theorem Chunk.congr (h : Chunk p a ref len) (hp : ∀ i, a ≤ i → i < a + len → p' i = p i) :
    Chunk p' a ref len := by
  obtain ⟨hget, hpos, hone⟩ := h
  have hfirst := hp a le_rfl (by omega)
  refine ⟨?_, hpos, fun hlen => by rw [hfirst]; exact hone hlen⟩
  simp only [ppGetreflen, hfirst] at hget ⊢
  by_cases hsign : p a > 0
  · simpa [hsign] using hget
  · rwa [hp (a + 1) (by omega) (by omega)]

theorem ppSetreflen_of_ne (p : ℕ → ℤ) (a : ℕ) (ref : ℤ) (hlen : 0 < len) {i : ℕ}
    (hi : i < a ∨ a + len ≤ i) : ppSetreflen p a ref len i = p i := by
  have hne : i ≠ a := by omega
  simp only [ppSetreflen]
  split
  · exact update_of_ne hne _ _
  · have hne' : i ≠ a + 1 := by omega
    rw [update_of_ne hne', update_of_ne hne]

theorem chunk_ppSetreflen (p : ℕ → ℤ) (a ref : ℕ) (hlen : 0 < len) :
    Chunk (ppSetreflen p a ref len) a ref len := by
  by_cases hone : len = 1
  · refine ⟨?_, hlen, fun _ => ?_⟩
    · simp [ppGetreflen, ppSetreflen, hone, show (0 : ℤ) < ref + 1 by omega]
    · simp only [ppSetreflen, hone, if_true, update_self]
      omega
  · refine ⟨?_, hlen, fun h => absurd h hone⟩
    simp [ppGetreflen, ppSetreflen, hone]

theorem Tiles.le (h : Tiles p c a b) : a ≤ b := by
  induction h with
  | nil => exact le_rfl
  | chunk _ _ _ ih => omega

theorem Tiles.congr (h : Tiles p c a b) (hp : ∀ i, a ≤ i → i < b → p' i = p i)
    (hc : ∀ s, a ≤ s → s < b → c' s = c s) : Tiles p' c' a b := by
  induction h with
  | nil => exact .nil _
  | @chunk a b ref len hchunk hcount hrest ih =>
    have hle := hrest.le
    apply Tiles.chunk (hchunk.congr fun i hi hlt => hp i hi (by omega))
    · intro s hs hlt
      rw [hc s hs (by omega), hcount s hs hlt]
    · exact ih (fun i hi hlt => hp i (by omega) hlt) (fun s hs hlt => hc s (by omega) hlt)

theorem Tiles.append {m : ℕ} (h : Tiles p c a m) (hrest : Tiles p c m b) : Tiles p c a b := by
  induction h with
  | nil => exact hrest
  | chunk hchunk hcount _ ih => exact .chunk hchunk hcount (ih hrest)

theorem Tiles.snoc (h : Tiles p c a b) (hchunk : Chunk p b ref len)
    (hcount : ∀ s, b ≤ s → s < b + len → c s = ref) : Tiles p c a (b + len) :=
  h.append (.chunk hchunk hcount (.nil _))

theorem Tiles.write (h : Tiles p c 0 a) (ref : ℕ) (hlen : 0 < len)
    (hcount : ∀ s, a ≤ s → s < a + len → c s = ref) :
    Tiles (ppSetreflen p a ref len) c 0 (a + len) :=
  (h.congr (fun _ _ hi => ppSetreflen_of_ne p a ref hlen (.inl hi)) fun _ _ _ => rfl).snoc
    (chunk_ppSetreflen p a ref hlen) hcount

theorem Tiles.behind {m : ℕ} (h : Tiles p c m b) (ref : ℤ) (hlen : 0 < len) (hm : a + len ≤ m) :
    Tiles (ppSetreflen p a ref len) c m b :=
  h.congr (fun _ hi _ => ppSetreflen_of_ne p a ref hlen (.inr (hm.trans hi))) fun _ _ _ => rfl

theorem ppCut_spec {stop : ℕ} (h : Tiles p c a b) (hstart : a < stop) (hstop : stop ≤ b) :
    ∃ (p' : ℕ → ℤ) (ref len : ℕ), ppCut p a stop = (p', (ref : ℤ), len) ∧ Chunk p' a ref len ∧
      (∀ s, a ≤ s → s < a + len → c s = ref) ∧ a + len ≤ stop ∧ Tiles p' c (a + len) b ∧
      ∀ i < a, p' i = p i := by
  cases h with
  | nil => omega
  | @chunk _ _ ref len hchunk hcount hrest =>
    simp only [ppCut, hchunk.1]
    split
    next hpast =>
      have hpos : 0 < stop - a := by omega
      have hpos' : 0 < len - (stop - a) := by omega
      refine ⟨_, ref, stop - a, rfl, ?_, ?_, by omega, ?_, ?_⟩
      · apply (chunk_ppSetreflen p a ref hpos).congr
        intro i _ hi
        exact ppSetreflen_of_ne _ _ _ hpos' (by omega)
      · intro s hs hlt
        exact hcount s hs (by omega)
      · have heq : a + (stop - a) = stop := by omega
        rw [heq]
        apply Tiles.chunk (chunk_ppSetreflen _ stop ref hpos')
        · intro s hs hlt
          exact hcount s (by omega) (by omega)
        · rw [show stop + (len - (stop - a)) = a + len by omega]
          exact (hrest.behind _ hpos (by omega)).behind _ hpos' (by omega)
      · intro i hi
        rw [ppSetreflen_of_ne _ _ _ hpos' (by omega), ppSetreflen_of_ne _ _ _ hpos (by omega)]
    next hwithin =>
      exact ⟨p, ref, len, rfl, hchunk, hcount, by omega, hrest, fun _ _ => rfl⟩

/-- The slots before `lcv` are tiled and the last chunk starts at `prevlcv`. -/
def TiledTo (p : ℕ → ℤ) (c : ℕ → ℕ) (prevlcv lcv : ℕ) : Prop :=
  (lcv = 0 ∧ prevlcv = 0) ∨ Tiles p c 0 prevlcv ∧ ∃ ref len, lcv = prevlcv + len ∧
    Chunk p prevlcv ref len ∧ ∀ s, prevlcv ≤ s → s < lcv → c s = ref

theorem TiledTo.tiles {prevlcv lcv : ℕ} (h : TiledTo p c prevlcv lcv) : Tiles p c 0 lcv := by
  obtain ⟨rfl, -⟩ | ⟨htiles, ref, len, rfl, hchunk, hcount⟩ := h
  · exact .nil 0
  · exact htiles.snoc hchunk hcount

theorem ppAdvance_spec {curslot : ℕ} (hcur : curslot ≤ b) (fuel : ℕ) {p : ℕ → ℤ}
    {lcv prevlcv : ℕ} (hle : lcv ≤ curslot) (hfuel : curslot ≤ lcv + fuel)
    (hbefore : TiledTo p c prevlcv lcv) (hrest : Tiles p c lcv b) :
    ∃ p' prevlcv', ppAdvance curslot fuel p lcv prevlcv = some (p', curslot, prevlcv') ∧
      TiledTo p' c prevlcv' curslot ∧ Tiles p' c curslot b := by
  induction fuel using Nat.strong_induction_on generalizing p lcv prevlcv with
  | _ fuel ih =>
    obtain rfl | hlt := hle.eq_or_lt
    · exact ⟨p, prevlcv, by cases fuel <;> simp [ppAdvance], hbefore, hrest⟩
    obtain ⟨fuel, rfl⟩ : ∃ n, fuel = n + 1 := Nat.exists_eq_add_one.mpr (by omega)
    obtain ⟨p', ref, len, hcut, hchunk, hcount, hlen, hrest', hsame⟩ := ppCut_spec hrest hlt hcur
    have hpos := hchunk.2.1
    obtain ⟨p'', prevlcv', heq, hresult⟩ := ih fuel (by omega) hlen (by omega)
      (.inr ⟨hbefore.tiles.congr (fun i _ hi => hsame i hi) (fun _ _ _ => rfl),
        ref, len, rfl, hchunk, hcount⟩) hrest'
    refine ⟨p'', prevlcv', ?_, hresult⟩
    rw [ppAdvance, if_pos hlt]
    simpa only [hcut] using heq

/-- The second loop.  `c'` are the counts that it makes; a chunk is merged with the one
before only if it starts where that one ends. -/
theorem ppAdjust_spec {stop prevlcv prevlen : ℕ} {prevref adjval : ℤ} (hstop : stop ≤ b)
    (hafter : ∀ s, stop ≤ s → c' s = c s) (fuel : ℕ) {o : Overlay} {p : ℕ → ℤ} {lcv : ℕ}
    (ho : o.Ok) (hle : lcv ≤ stop) (hfuel : stop ≤ lcv + fuel)
    (hadj : ∀ s, lcv ≤ s → s < stop → (c' s : ℤ) = c s + adjval)
    (hdone : Tiles p c' 0 lcv) (hrest : Tiles p c lcv b) (hprev : prevlcv + prevlen ≤ lcv)
    (hmerge : lcv = prevlcv + prevlen → prevref = -1 ∨ 0 < prevlen ∧
      Tiles p c' 0 prevlcv ∧ ∀ s, prevlcv ≤ s → s < lcv → (c' s : ℤ) = prevref) :
    ∃ o' p', ppAdjust stop prevlcv prevlen prevref adjval fuel o p lcv = some (o', p') ∧
      Tiles p' c' 0 b ∧ Wiped (fun s => lcv ≤ s ∧ s < stop ∧ c' s = 0) o o' := by
  induction fuel using Nat.strong_induction_on generalizing o p lcv with
  | _ fuel ih =>
    obtain rfl | hlt := hle.eq_or_lt
    · refine ⟨o, p, by cases fuel <;> simp [ppAdjust], ?_, ho, fun s hs => by omega, fun _ _ => rfl⟩
      exact hdone.append (hrest.congr (fun _ _ _ => rfl) fun s hs _ => hafter s hs)
    obtain ⟨fuel, rfl⟩ : ∃ n, fuel = n + 1 := Nat.exists_eq_add_one.mpr (by omega)
    obtain ⟨p', ref, len, hcut, hchunk, hcount, hlen, hrest', hsame⟩ := ppCut_spec hrest hlt hstop
    have hpos := hchunk.2.1
    have hnew : ∀ s, lcv ≤ s → s < lcv + len → (c' s : ℤ) = ref + adjval := by
      intro s hs hs'
      rw [hadj s hs (by omega), hcount s hs hs']
    -- the new count of the chunk, which is not negative as it is that of a slot
    obtain ⟨new, hnewref⟩ : ∃ new : ℕ, (ref : ℤ) + adjval = new :=
      ⟨c' lcv, (hnew lcv le_rfl (by omega)).symm⟩
    have hcount' : ∀ s, lcv ≤ s → s < lcv + len → c' s = new := by
      intro s hs hs'
      have := hnew s hs hs'
      omega
    have hwiped : Wiped (fun s => lcv ≤ s ∧ s < lcv + len ∧ new = 0) o
        (if (ref : ℤ) + adjval = 0 then amapWiperange o lcv len else o) := by
      split
      next hzero =>
        have hwiped := amapWiperange_wiped ho lcv len
        exact ⟨hwiped.ok, fun s hs => hwiped.wiped s ⟨hs.1, hs.2.1⟩,
          fun s hs => hwiped.kept s (by omega)⟩
      next hzero => exact ⟨ho, fun s hs => by omega, fun _ _ => rfl⟩
    obtain ⟨p₂, hwrite, hdone', hkeep⟩ : ∃ p₂,
        (if lcv = prevlcv + prevlen ∧ (ref : ℤ) + adjval = prevref then
          ppSetreflen p' prevlcv (ref + adjval) (prevlen + len)
          else ppSetreflen p' lcv (ref + adjval) len) = p₂ ∧
        Tiles p₂ c' 0 (lcv + len) ∧ Tiles p₂ c (lcv + len) b := by
      refine ⟨_, rfl, ?_⟩
      rw [hnewref]
      split
      next hcond =>
        obtain ⟨rfl, hrefs⟩ := hcond
        obtain hneg | ⟨hprevlen, htiles, hprevcount⟩ := hmerge rfl
        · omega
        have htiles' : Tiles p' c' 0 prevlcv :=
          htiles.congr (fun i _ hi => hsame i (by omega)) fun _ _ _ => rfl
        refine ⟨?_, hrest'.behind _ (by omega) (by omega)⟩
        rw [Nat.add_assoc]
        apply htiles'.write _ (by omega)
        intro s hs hs'
        by_cases hbefore : s < prevlcv + prevlen
        · have := hprevcount s hs hbefore
          omega
        · exact hcount' s (by omega) (by omega)
      next hcond =>
        have hdone' : Tiles p' c' 0 lcv := hdone.congr (fun i _ hi => hsame i hi) fun _ _ _ => rfl
        exact ⟨hdone'.write _ hpos hcount', hrest'.behind _ hpos le_rfl⟩
    obtain ⟨o', p'', heq, htiles, hwiped'⟩ := ih fuel (by omega) hwiped.ok hlen (by omega)
      (fun s hs => hadj s (by omega)) hdone' hkeep (by omega) (fun h => by omega)
    refine ⟨o', p'', ?_, htiles, hwiped'.ok, ?_, ?_⟩
    · rw [ppAdjust, if_pos hlt]
      simp only [hcut, if_neg (show ¬ ((ref : ℤ) + adjval < 0) by omega), hwrite]
      exact heq
    · intro s hs
      by_cases hhere : s < lcv + len
      · have := hcount' s hs.1 hhere
        rw [hwiped'.kept s (by omega), hwiped.wiped s (by omega)]
      · exact hwiped'.wiped s (by omega)
    · intro s hs
      rw [hwiped'.kept s (by omega), hwiped.kept s ?_]
      intro hin
      have := hcount' s hin.1 hin.2.1
      omega

theorem amapPpAdjref_spec {curslot slotlen : ℕ} {adjval : ℤ} (ho : o.Ok)
    (htiles : Tiles p c 0 b) (hstop : curslot + slotlen ≤ b)
    (hadj : ∀ s, (c' s : ℤ) = c s + if curslot ≤ s ∧ s < curslot + slotlen then adjval else 0) :
    ∃ o' p', amapPpAdjref o p curslot slotlen adjval = some (o', p') ∧ Tiles p' c' 0 b ∧
      Wiped (fun s => curslot ≤ s ∧ s < curslot + slotlen ∧ c' s = 0) o o' := by
  have hout : ∀ s, ¬ (curslot ≤ s ∧ s < curslot + slotlen) → c' s = c s := by
    intro s hs
    have := hadj s
    omega
  have hin : ∀ s, curslot ≤ s → s < curslot + slotlen → (c' s : ℤ) = c s + adjval := by
    intro s hs hs'
    rw [hadj s, if_pos ⟨hs, hs'⟩]
  obtain ⟨p', prevlcv, heq, hbefore, hrest⟩ := ppAdvance_spec (by omega) curslot
    (Nat.zero_le curslot) (by omega) (.inl ⟨rfl, rfl⟩) htiles
  simp only [amapPpAdjref, heq, Option.bind_some, ne_eq, not_true_eq_false, if_false]
  have hdone : Tiles p' c' 0 curslot :=
    hbefore.tiles.congr (fun _ _ _ => rfl) fun s _ hs => hout s (by omega)
  obtain ⟨rfl, rfl⟩ | ⟨hprev, ref, len, hcur, hchunk, hcount⟩ := hbefore
  · simp only [not_true_eq_false, if_false]
    exact ppAdjust_spec hstop (fun s hs => hout s (by omega)) slotlen ho (by omega) le_rfl hin
      hdone hrest (by omega) (fun _ => .inl rfl)
  · have hpos := hchunk.2.1
    rw [if_pos (by omega), hchunk.1]
    apply ppAdjust_spec hstop (fun s hs => hout s (by omega)) slotlen ho (by omega) le_rfl hin
      hdone hrest (by omega)
    intro _
    refine .inr ⟨hpos, hprev.congr (fun _ _ _ => rfl) fun s _ hs => hout s (by omega), ?_⟩
    intro s hs hs'
    rw [hout s (by omega), hcount s hs hs']

/-! ## The references on an amap -/

def covering (refs : List Aref) (slot : ℕ) : ℕ := refs.countP fun r => r.Covers slot

variable {am : Amap} {refs : List Aref} {r : Aref}

theorem covering_cons (r : Aref) (refs : List Aref) (s : ℕ) :
    covering (r :: refs) s =
      covering refs s + if r.pageoff ≤ s ∧ s < r.pageoff + r.slots then 1 else 0 := by
  simp only [covering, countP_cons, decide_eq_true_eq]
  rfl

theorem covering_erase (hmem : r ∈ refs) (s : ℕ) :
    covering refs s = covering (refs.erase r) s +
      if r.pageoff ≤ s ∧ s < r.pageoff + r.slots then 1 else 0 := by
  rw [← covering_cons]
  exact (perm_cons_erase hmem).countP_eq _

theorem covering_eq_zero {s : ℕ} (h : ∀ r ∈ refs, r.pageoff + r.slots ≤ s) :
    covering refs s = 0 := by
  apply countP_eq_zero.mpr
  intro r hr hcovers
  have hbound := h r hr
  have hlt := (of_decide_eq_true hcovers).2
  omega

theorem covering_whole {n : ℕ} (h : ∀ r ∈ refs, r = ⟨0, n⟩) {s : ℕ} (hs : s < n) :
    covering refs s = refs.length := by
  apply countP_eq_length.mpr
  intro r hr
  rw [h r hr]
  simpa [Aref.Covers] using hs

/-- An amap agrees with the references `refs`; `c` is what its array counts. -/
structure Amap.Fits (am : Amap) (refs : List Aref) (c : ℕ → ℕ) : Prop where
  ref : am.ref = refs.length
  held : 0 < refs.length
  within : ∀ r ∈ refs, 0 < r.slots ∧ r.pageoff + r.slots ≤ am.nslot
  room : am.nslot ≤ am.maxslot
  overlay : am.overlay.Ok
  beyond : ∀ s, am.nslot ≤ s → am.overlay.anon s = none
  whole : am.ppref = .null → ∀ r ∈ refs, r = ⟨0, am.nslot⟩
  tiles : ∀ p, am.ppref = .array p → Tiles p c 0 am.nslot
  empty : ∀ p, am.ppref = .array p → ∀ s, c s = 0 → am.overlay.anon s = none

def Held.Ok (h : Held) : Prop := h.amap.Fits h.refs (covering h.refs)

def Kept (refs : List Aref) (o after : Overlay) : Prop :=
  ∀ s, covering refs s ≠ 0 → after.anon s = o.anon s

theorem ppIsNull_iff (am : Amap) : am.ppIsNull = true ↔ am.ppref = .null := by
  unfold Amap.ppIsNull
  split <;> simp_all

theorem Amap.Fits.uncounted (h : am.Fits refs c) (pp : Ppref) (hpp : ∀ p, pp ≠ .array p)
    (hnull : pp = .null → am.ppref = .null) (c' : ℕ → ℕ) :
    Amap.Fits { am with ppref := pp } refs c' :=
  { h with
    whole := fun hp => h.whole (hnull hp)
    tiles := fun p hp => absurd hp (hpp p)
    empty := fun p hp => absurd hp (hpp p) }

theorem Amap.Fits.adjref {curslot slotlen : ℕ} (adjval : ℤ) (h : am.Fits refs c)
    (hstop : curslot + slotlen ≤ am.nslot) (hadj : ∀ s, (covering refs s : ℤ) =
      c s + if curslot ≤ s ∧ s < curslot + slotlen then adjval else 0) :
    ∃ o pp, am.adjref curslot slotlen adjval = some { am with overlay := o, ppref := pp } ∧
      Amap.Fits { am with overlay := o, ppref := pp } refs (covering refs) ∧
      Kept refs am.overlay o ∧ (∀ p, am.ppref = .array p → ∃ p', pp = .array p') := by
  cases hpp : am.ppref with
  | null | unused =>
    have heq : am.adjref curslot slotlen adjval = some am := by simp [Amap.adjref, hpp]
    exact ⟨am.overlay, am.ppref, heq, h.uncounted _ (by simp [hpp]) id _, fun _ _ => rfl, by simp⟩
  | array p =>
    obtain ⟨o, p', heq, htiles, hwiped⟩ := amapPpAdjref_spec h.overlay (h.tiles p hpp) hstop hadj
    have hnone : ∀ s, am.overlay.anon s = none → o.anon s = none := by
      intro s hs
      by_cases hin : curslot ≤ s ∧ s < curslot + slotlen ∧ covering refs s = 0
      · exact hwiped.wiped s hin
      · rw [hwiped.kept s hin, hs]
    refine ⟨o, .array p', by simp [Amap.adjref, hpp, heq], ?_, ?_, fun _ _ => ⟨p', rfl⟩⟩
    · refine { h with
        overlay := hwiped.ok
        beyond := fun s hs => hnone s (h.beyond s hs)
        whole := fun hnull => by simp at hnull
        tiles := fun q hq => ?_
        empty := fun q hq s hs => ?_ }
      · cases hq
        exact htiles
      · by_cases hin : curslot ≤ s ∧ s < curslot + slotlen
        · exact hwiped.wiped s ⟨hin.1, hin.2, hs⟩
        · have hcount := hadj s
          exact hnone s (h.empty p hpp s (by omega))
    · intro s hs
      exact hwiped.kept s fun hin => hs hin.2.2

section

variable (h : am.Fits refs (covering refs))
include h

theorem Amap.Fits.establish (hnull : am.ppref = .null)
    (allocated : Bool) : (amapPpEstablish am allocated).Fits refs (covering refs) := by
  cases allocated with
  | false => exact h.uncounted .unused (by simp) (by simp) _
  | true =>
    have hwhole := h.whole hnull
    obtain ⟨r, hr⟩ := exists_mem_of_length_pos h.held
    have hpos : 0 < am.nslot := by
      have := h.within r hr
      omega
    refine { h with
      whole := fun hp => by simp [amapPpEstablish] at hp
      tiles := fun p hp => ?_
      empty := fun p hp s hs => ?_ }
    · simp only [amapPpEstablish, if_true, Ppref.array.injEq] at hp
      subst hp
      have htiles := (Tiles.nil (p := fun _ => 0) (c := covering refs) 0).write am.ref hpos
        fun s _ hs => by rw [covering_whole hwhole (by omega), h.ref]
      rwa [Nat.zero_add] at htiles
    · apply h.beyond
      by_contra hlt
      rw [covering_whole hwhole (by omega)] at hs
      exact h.held.ne' hs

omit h in
theorem covering_split {left : ℕ} (hmem : r ∈ refs) (hleft : left ≤ r.slots) :
    covering (⟨r.pageoff, left⟩ :: ⟨r.pageoff + left, r.slots - left⟩ :: refs.erase r) =
      covering refs := by
  funext s
  rw [covering_cons, covering_cons, covering_erase hmem s]
  simp only
  split_ifs <;> omega

theorem Amap.Fits.splitref {left : ℕ} (hmem : r ∈ refs)
    (hpos : 0 < left) (hlt : left < r.slots) (allocated : Bool) :
    ∃ am', amapSplitref am r left allocated = some am' ∧ am'.overlay = am.overlay ∧
      am'.Fits (⟨r.pageoff, left⟩ :: ⟨r.pageoff + left, r.slots - left⟩ :: refs.erase r)
        (covering (⟨r.pageoff, left⟩ :: ⟨r.pageoff + left, r.slots - left⟩ :: refs.erase r)) := by
  have hwithin := h.within r hmem
  rw [covering_split hmem hlt.le]
  obtain ⟨am₁, hdef, hfits, hused, hover, hnslot⟩ :
      ∃ am₁, (if am.ppIsNull then amapPpEstablish am allocated else am) = am₁ ∧
        am₁.Fits refs (covering refs) ∧ am₁.ppref ≠ .null ∧ am₁.overlay = am.overlay ∧
        am₁.nslot = am.nslot := by
    refine ⟨_, rfl, ?_⟩
    split
    next hnull =>
      refine ⟨h.establish ((ppIsNull_iff am).mp hnull) allocated, ?_⟩
      cases allocated <;> simp [amapPpEstablish]
    next hnull => exact ⟨h, fun hp => hnull ((ppIsNull_iff am).mpr hp), rfl, rfl⟩
  refine ⟨{ am₁ with ref := am₁.ref + 1 }, ?_, hover, ?_⟩
  · rw [amapSplitref, if_neg (by omega)]
    simp only [hdef]
  · refine { hfits with
      ref := ?_
      held := by simp
      within := ?_
      whole := fun hp => absurd hp hused }
    · have hlength := length_erase_of_mem hmem
      simp only [length_cons, hfits.ref]
      have := hfits.held
      omega
    · intro r' hr'
      simp only [mem_cons] at hr'
      obtain rfl | rfl | hr' := hr'
      · exact ⟨hpos, by simp only [hnslot]; omega⟩
      · exact ⟨by simp only; omega, by simp only [hnslot]; omega⟩
      · exact hfits.within r' (mem_of_mem_erase hr')

omit h in
theorem adjustRange_eq (am : Amap) {all : Bool} {adjval : ℤ}
    (hnull : am.ppref = .null → r.slots = am.nslot) (hall : all → r = ⟨0, am.nslot⟩)
    (allocated : Bool) :
    am.adjustRange r.pageoff r.slots all allocated adjval = am.adjref r.pageoff r.slots adjval := by
  have hcond : ¬ (am.ppIsNull ∧ ¬ all ∧ r.slots ≠ am.nslot) := by
    rintro ⟨hp, _, hne⟩
    exact hne (hnull ((ppIsNull_iff am).mp hp))
  simp only [Amap.adjustRange, if_neg hcond]
  cases all with
  | false => rfl
  | true =>
    rw [hall rfl]
    rfl

theorem Amap.Fits.amapRef {all : Bool} (hpos : 0 < r.slots)
    (hle : r.pageoff + r.slots ≤ am.nslot) (hall : all → r = ⟨0, am.nslot⟩)
    (hnull : am.ppref = .null → r.slots = am.nslot) (allocated : Bool) :
    ∃ am', amapRef am r.pageoff r.slots all allocated = some am' ∧
      am'.Fits (r :: refs) (covering (r :: refs)) ∧ Kept (r :: refs) am.overlay am'.overlay := by
  have hfits : Amap.Fits { am with ref := am.ref + 1 } (r :: refs) (covering refs) := by
    refine { h with ref := ?_, held := by simp, within := ?_, whole := ?_ }
    · simp [h.ref]
    · exact forall_mem_cons.mpr ⟨⟨hpos, hle⟩, h.within⟩
    · intro hp
      refine forall_mem_cons.mpr ⟨?_, h.whole hp⟩
      have hslots := hnull hp
      rw [show r = ⟨r.pageoff, r.slots⟩ from rfl, hslots, show r.pageoff = 0 by omega]
  obtain ⟨o, pp, heq, hfits', hkept, -⟩ := hfits.adjref 1 hle (by
    intro s
    rw [covering_cons]
    push_cast
    rfl)
  refine ⟨_, ?_, hfits', hkept⟩
  rw [Uvm.amapRef, adjustRange_eq { am with ref := am.ref + 1 } hnull hall, heq]

section

variable (hmem : r ∈ refs)
include hmem

/-- A reference is given up while others remain: part of `amap_unref` and of `amap_copy`. -/
theorem Amap.Fits.drop (hmore : am.ref ≠ 1) :
    ∃ am', ({ am with ref := am.ref - 1 } : Amap).adjref r.pageoff r.slots (-1) = some am' ∧
      am'.Fits (refs.erase r) (covering (refs.erase r)) ∧
      Kept (refs.erase r) am.overlay am'.overlay := by
  have hlength := length_erase_of_mem hmem
  have hheld := h.held
  have href := h.ref
  have hfits : Amap.Fits { am with ref := am.ref - 1 } (refs.erase r) (covering refs) :=
    { h with
      ref := by simp only; omega
      held := by omega
      within := fun r' hr' => h.within r' (mem_of_mem_erase hr')
      whole := fun hp r' hr' => h.whole hp r' (mem_of_mem_erase hr') }
  obtain ⟨o, pp, heq, hfits', hkept, -⟩ := hfits.adjref (-1) (h.within r hmem).2 (by
    intro s
    rw [covering_erase hmem s]
    split_ifs <;> push_cast <;> ring)
  exact ⟨_, heq, hfits', hkept⟩

theorem Amap.Fits.amapUnref {all : Bool} (hall : all → r = ⟨0, am.nslot⟩) (allocated : Bool) :
    (refs = [r] ∧ amapUnref am r.pageoff r.slots all allocated = some none) ∨
    ∃ am', amapUnref am r.pageoff r.slots all allocated = some (some am') ∧
      am'.Fits (refs.erase r) (covering (refs.erase r)) ∧
      Kept (refs.erase r) am.overlay am'.overlay := by
  by_cases hone : am.ref = 1
  · left
    obtain ⟨r', hr'⟩ := length_eq_one_iff.mp (h.ref.symm.trans hone)
    obtain rfl : r = r' := by simpa [hr'] using hmem
    have hwipes : am.overlay.wipes = true := by
      simp only [Overlay.wipes, all_eq_true, mem_range]
      exact fun i hi => (h.overlay.listed i hi).1
    exact ⟨hr', by simp [Uvm.amapUnref, hone, hwipes]⟩
  · right
    obtain ⟨am', heq, hresult⟩ := h.drop hmem hone
    refine ⟨am', ?_, hresult⟩
    have hnull : am.ppref = .null → r.slots = am.nslot := by
      intro hp
      rw [h.whole hp r hmem]
    rw [Uvm.amapUnref, if_neg hone, adjustRange_eq { am with ref := am.ref - 1 } hnull hall, heq]
    rfl

/-! ## Extension -/

/-- The references when `r` reaches up to `stop`. -/
abbrev grown (refs : List Aref) (r : Aref) (stop : ℕ) : List Aref :=
  ⟨r.pageoff, stop - r.pageoff⟩ :: refs.erase r

omit h in
theorem covering_grown {stop : ℕ} (hge : r.pageoff + r.slots ≤ stop) (s : ℕ) :
    covering (grown refs r stop) s =
      covering refs s + if r.pageoff + r.slots ≤ s ∧ s < stop then 1 else 0 := by
  rw [covering_cons, covering_erase hmem s]
  simp only
  split_ifs <;> omega

theorem Amap.Fits.extended {stop : ℕ} (hge : r.pageoff + r.slots ≤ stop) (hle : stop ≤ am.nslot) :
    am.Fits (grown refs r stop) (covering refs) := by
  have hlength := length_erase_of_mem hmem
  have hheld := h.held
  have href := h.ref
  refine { h with ref := ?_, held := by simp, within := ?_, whole := ?_ }
  · simp only [length_cons]
    omega
  · have := h.within r hmem
    exact forall_mem_cons.mpr ⟨⟨by simp only; omega, by simp only; omega⟩,
      fun r' hr' => h.within r' (mem_of_mem_erase hr')⟩
  · intro hp
    refine forall_mem_cons.mpr ⟨?_, fun r' hr' => h.whole hp r' (mem_of_mem_erase hr')⟩
    -- the reference covers the whole amap already
    have hr := h.whole hp r hmem
    simp only [hr, zero_add, Nat.sub_zero] at hge ⊢
    rw [hle.antisymm hge]

theorem Amap.Fits.extendPpref {need maxslot : ℕ} (hmore : am.nslot < need)
    (hmax : need ≤ maxslot) (hnull : am.ppref = .null → am.ref = 1) :
    ∃ o pp, am.extendPpref (r.pageoff + r.slots) need = some { am with overlay := o, ppref := pp } ∧
      Amap.Fits ⟨am.ref, maxslot, need, pp, o⟩ (grown refs r need) (covering (grown refs r need)) ∧
      Kept (grown refs r need) am.overlay o := by
  have hwithin := h.within r hmem
  -- first the reference reaches the end of the amap
  have hfull := h.extended hmem hwithin.2 le_rfl
  have hcover := covering_grown hmem hwithin.2
  have hcover' := covering_grown hmem (hwithin.2.trans hmore.le)
  have hlow : ∀ s < am.nslot, covering (grown refs r need) s =
      covering (grown refs r am.nslot) s := by
    intro s hs
    rw [hcover, hcover']
    split_ifs <;> omega
  have hhigh : ∀ s, am.nslot ≤ s → s < need → covering (grown refs r need) s = 1 := by
    intro s hs hs'
    rw [hcover', covering_eq_zero fun r' hr' => (h.within r' hr').2.trans hs, if_pos (by omega)]
  have hwithin' : ∀ r' ∈ grown refs r need, 0 < r'.slots ∧ r'.pageoff + r'.slots ≤ need := by
    refine forall_mem_cons.mpr ⟨⟨by simp only; omega, by simp only; omega⟩, fun r' hr' => ?_⟩
    have := h.within r' (mem_of_mem_erase hr')
    exact ⟨this.1, by omega⟩
  cases hpp : am.ppref with
  | null | unused =>
    have heq : am.extendPpref (r.pageoff + r.slots) need = some am := by
      simp [Amap.extendPpref, hpp]
    refine ⟨am.overlay, am.ppref, heq, ?_, fun _ _ => rfl⟩
    refine { hfull with
      within := hwithin'
      room := hmax
      beyond := fun s hs => h.beyond s (by simp only at hs; omega)
      whole := ?_
      tiles := fun p hp => by simp [hpp] at hp
      empty := fun p hp => by simp [hpp] at hp }
    intro hp r' hr'
    have hone : refs.length = 1 := h.ref.symm.trans (hnull hp)
    obtain ⟨r₀, rfl⟩ := length_eq_one_iff.mp hone
    obtain rfl : r = r₀ := by simpa using hmem
    have hr := h.whole hp r (by simp)
    simp only [grown, erase_cons_head, mem_singleton] at hr'
    rw [hr', hr]
    simp
  | array p =>
    obtain ⟨o, p', heq, hfits, hkept⟩ : ∃ o p', (if r.pageoff + r.slots < am.nslot then
          am.adjref (r.pageoff + r.slots) (am.nslot - (r.pageoff + r.slots)) 1 else some am) =
          some { am with overlay := o, ppref := .array p' } ∧
        Amap.Fits { am with overlay := o, ppref := .array p' } (grown refs r am.nslot)
          (covering (grown refs r am.nslot)) ∧
        Kept (grown refs r am.nslot) am.overlay o := by
      have hend := Nat.add_sub_cancel' hwithin.2
      split
      next hlt =>
        obtain ⟨o, pp, heq, hfits, hkept, harray⟩ := hfull.adjref 1 hend.le (by
          intro s
          rw [hcover s, hend]
          push_cast
          rfl)
        obtain ⟨p', rfl⟩ := harray p hpp
        exact ⟨o, p', heq, hfits, hkept⟩
      next hge =>
        have hsame : covering (grown refs r am.nslot) = covering refs := by
          funext s
          rw [hcover s, if_neg (by omega), Nat.add_zero]
        refine ⟨am.overlay, p, by rw [← hpp], ?_, fun _ _ => rfl⟩
        rw [hsame, ← hpp]
        exact hfull
    refine ⟨o, .array (ppSetreflen p' am.nslot 1 (need - am.nslot)), ?_, ?_, ?_⟩
    · simp only [Amap.extendPpref, hpp, heq, Option.map_some]
    · refine { hfits with
        within := hwithin'
        room := hmax
        beyond := fun s hs => hfits.beyond s (by simp only at hs ⊢; omega)
        whole := fun hp => by simp at hp
        tiles := fun q hq => ?_
        empty := fun q hq s hs => ?_ }
      · cases hq
        have hpos : 0 < need - am.nslot := by omega
        have htiles := ((hfits.tiles p' rfl).congr (fun _ _ _ => rfl)
          fun s _ hs => hlow s hs).write 1 hpos fun s hs hs' =>
            hhigh s hs (by simp only at hs'; omega)
        simpa only [Nat.cast_one, show am.nslot + (need - am.nslot) = need by omega] using htiles
      · by_cases hs' : s < am.nslot
        · exact hfits.empty p' rfl s (by rw [← hlow s hs']; exact hs)
        · exact hfits.beyond s (Nat.le_of_not_lt hs')
    · intro s hs
      by_cases hs' : s < am.nslot
      · exact hkept s (by rwa [← hlow s hs'])
      · rw [hfits.beyond s (Nat.le_of_not_lt hs'), h.beyond s (Nat.le_of_not_lt hs')]

omit hmem in
theorem Amap.Fits.reallocPpref (newppref newsl : Bool) :
    ∃ pp, am.reallocPpref newppref newsl = { am with ppref := pp } ∧
      Amap.Fits { am with ppref := pp } refs (covering refs) ∧ (pp = .null → am.ppref = .null) := by
  cases hpp : am.ppref with
  | null | unused =>
    have heq : am.reallocPpref newppref newsl = am := by simp [Amap.reallocPpref, hpp]
    exact ⟨am.ppref, heq, h, hpp.symm.trans⟩
  | array p =>
    cases newppref with
    | false =>
      exact ⟨.unused, by simp [Amap.reallocPpref, hpp], h.uncounted _ (by simp) (by simp) _,
        by simp⟩
    | true =>
      cases newsl with
      | false =>
        have heq : am.reallocPpref true false = am := by simp [Amap.reallocPpref, hpp]
        exact ⟨am.ppref, heq, h, hpp.symm.trans⟩
      | true =>
        refine ⟨.array fun i => if i < am.nslot then p i else 0,
          by simp [Amap.reallocPpref, hpp], ?_, by simp⟩
        refine { h with
          whole := fun hp => by simp at hp
          tiles := fun q hq => ?_
          empty := fun q hq => h.empty p hpp }
        cases hq
        exact (h.tiles p hpp).congr (fun i _ hi => if_pos hi) fun _ _ _ => rfl

theorem Amap.Fits.amapExtend {slotadd slotalloc : ℕ}
    (hadd : 0 < slotadd) (halloc : r.pageoff + r.slots + slotadd ≤ slotalloc)
    (hnull : am.ppref = .null → am.ref = 1) (newppref newsl : Bool) :
    ∃ am' error refs', amapExtend am r slotadd slotalloc newppref newsl = some (am', error) ∧
      (if error = none then ⟨r.pageoff, r.slots + slotadd⟩ :: refs.erase r else refs) = refs' ∧
      am'.Fits refs' (covering refs') ∧ Kept refs' am.overlay am'.overlay := by
  have hneed : r.pageoff + r.slots + slotadd - r.pageoff = r.slots + slotadd := by omega
  unfold Uvm.amapExtend
  dsimp only
  split_ifs with hcase₁ hcase₂ hcase₃ hsl
  · obtain ⟨o, pp, heq, hfits, hkept, -⟩ :=
      (h.extended hmem (Nat.le_add_right ..) hcase₁).adjref 1 hcase₁ (by
        intro s
        rw [covering_grown hmem (Nat.le_add_right ..)]
        push_cast
        rfl)
    rw [grown, hneed] at hfits hkept
    exact ⟨_, none, _, by rw [heq]; rfl, if_pos rfl, hfits, hkept⟩
  · obtain ⟨o, pp, heq, hfits, hkept⟩ := h.extendPpref hmem (by omega) hcase₂ hnull
    rw [grown, hneed] at hfits hkept
    exact ⟨_, none, _, by rw [heq]; rfl, if_pos rfl, hfits, hkept⟩
  · exact ⟨am, some .e2big, refs, rfl, by simp, h, fun _ _ => rfl⟩
  · obtain ⟨pp, heq, hfits, hpp⟩ := h.reallocPpref newppref newsl
    rw [heq]
    obtain ⟨hok, hanon⟩ := hfits.overlay.enlarge hfits.beyond
    have hlarge : Amap.Fits { am with ppref := pp, overlay := am.overlay.enlarge am.nslot }
        refs (covering refs) :=
      { hfits with
        overlay := hok
        beyond := fun s hs => by simpa only [hanon] using hfits.beyond s hs
        empty := fun p hp s hs => by simpa only [hanon] using hfits.empty p hp s hs }
    obtain ⟨o, pp', heq', hfits', hkept⟩ := hlarge.extendPpref hmem
      (show am.nslot < r.pageoff + r.slots + slotadd by omega) halloc fun hp => hnull (hpp hp)
    rw [grown, hneed] at hfits' hkept
    refine ⟨_, none, _, by rw [heq']; rfl, if_pos rfl, hfits', ?_⟩
    intro s hs
    rw [← hanon]
    exact hkept s hs
  · obtain ⟨pp, heq, hfits, -⟩ := h.reallocPpref newppref newsl
    exact ⟨_, some .enomem, refs, rfl, by simp, by rwa [heq], fun s _ => by rw [heq]⟩

end

end

/-! ## Runs -/

/-- The slots that `amap_add` and `amap_unadd` write. -/
def AmapCall.Writes : AmapCall → ℕ → ℕ → Prop
  | .add id _ slot _ _, id', slot' | .unadd id _ slot, id', slot' => id = id' ∧ slot = slot'
  | _, _, _ => False

/-- What becomes of an amap: it is freed with its last reference, and otherwise no anon is
released from a slot that is still covered. -/
def Loses (call : AmapCall) (id : ℕ) (h : Held) : Option Held → Prop
  | none => ∃ old all allocated, call = .unref id old all allocated ∧ h.refs = [old]
  | some h' => ∀ slot, covering h'.refs slot ≠ 0 → ¬ call.Writes id slot →
      h'.amap.overlay.anon slot = h.amap.overlay.anon slot

def Counts (s : Amaps) : Prop := ∀ id, ∀ h ∈ s id, h.Ok

structure Settled (call : AmapCall) (s s' : Amaps) : Prop where
  counts : Counts s'
  loses : ∀ id, ∀ h ∈ s id, Loses call id h (s' id)

variable {s s' : Amaps} {call : AmapCall} {id : ℕ} {h h' : Held}

theorem Settled.refl (hs : Counts s) : Settled call s s := by
  refine ⟨hs, fun id h hh => ?_⟩
  rw [Option.mem_def.mp hh]
  exact fun _ _ _ => rfl

theorem Settled.update (hs : Settled call s s') {x : Option Held} (hok : ∀ h' ∈ x, h'.Ok)
    (hloses : ∀ h ∈ s id, Loses call id h x) : Settled call s (update s' id x) := by
  constructor
  · exact (forall_update_iff _ fun _ (x : Option Held) => ∀ h' ∈ x, h'.Ok).mpr
      ⟨hok, fun id' _ => hs.counts id'⟩
  · exact (forall_update_iff _ fun id' (x : Option Held) => ∀ h ∈ s id', Loses call id' h x).mpr
      ⟨hloses, fun id' _ => hs.loses id'⟩

variable {f : Held → Option (Option Held)}

theorem onHeld_settled (hs : Counts s) (hid : h ∈ s id) {x : Option Held}
    (hf : f h = some x) (hok : ∀ h' ∈ x, h'.Ok)
    (hloses : Loses call id h x) : ∃ s', s.onHeld id f = some s' ∧ Settled call s s' := by
  refine ⟨update s id x, ?_, (Settled.refl hs).update hok ?_⟩
  · rw [Amaps.onHeld, Option.mem_def.mp hid, Option.bind_some, hf, Option.map_some]
  · intro h₁ hh
    obtain rfl := Option.mem_unique hid hh
    exact hloses

theorem onHeld_settled_some (hs : Counts s) (hid : h ∈ s id) (hfits : am.Fits refs (covering refs))
    (hkept : Kept refs h.amap.overlay am.overlay) (hf : f h = some (some ⟨am, refs⟩)) :
    ∃ s', s.onHeld id f = some s' ∧ Settled call s s' :=
  onHeld_settled hs hid hf (fun _ hh => Option.some.inj hh ▸ hfits) fun slot hc _ => hkept slot hc

theorem amapAlloc_ok {slots totalslots : ℕ} (hpos : 0 < slots) (hle : slots ≤ totalslots)
    {o : Overlay} (hok : o.Ok) (hbeyond : ∀ s, slots ≤ s → o.anon s = none) :
    Held.Ok ⟨⟨1, totalslots, slots, .null, o⟩, [⟨0, slots⟩]⟩ where
  ref := rfl
  held := Nat.one_pos
  within := by simp [hpos]
  room := hle
  overlay := hok
  beyond := hbeyond
  whole := by simp
  tiles := fun p hp => by simp at hp
  empty := fun p hp => by simp at hp

section

variable (hfits : am.Fits refs (covering refs))
include hfits

theorem Amap.Fits.write {o : Overlay} {slot : ℕ} (hmem : r ∈ refs) (hcovers : r.Covers slot)
    (hok : o.Ok) (hsame : ∀ s, s ≠ slot → o.anon s = am.overlay.anon s) :
    Amap.Fits { am with overlay := o } refs (covering refs) := by
  have hwithin := hfits.within r hmem
  have hcovers' := hcovers.2
  refine { hfits with overlay := hok, beyond := ?_, empty := ?_ }
  · intro s hs
    rw [hsame s (by simp only at hs; omega)]
    exact hfits.beyond s hs
  · intro p hp s hs
    rw [hsame s ?_]
    · exact hfits.empty p hp s hs
    · rintro rfl
      exact countP_eq_zero.mp hs r hmem (decide_eq_true hcovers)

omit hfits in
theorem Overlay.Ok.replace (hok : o.Ok) (hused : (o.anon slot).isSome) :
    (o.replace slot anon).Ok := by
  have hsome : ∀ s, ((o.replace slot anon).anon s).isSome = (o.anon s).isSome := by
    intro s
    by_cases heq : s = slot
    · simp [Overlay.replace, heq, hused]
    · simp [Overlay.replace, heq]
  constructor
  · intro i hi
    rw [hsome]
    exact hok.listed i hi
  · intro s hs
    rw [hsome] at hs
    exact hok.back s hs

theorem Amap.Fits.amapAdd {replace : Bool} (hmem : r ∈ refs)
    (hcovers : r.Covers slot) (hused : (am.overlay.anon slot).isSome ↔ replace) (anon : ℕ) :
    ∃ o, amapAdd am slot anon replace = some { am with overlay := o } ∧ o.Ok ∧
      ∀ s, s ≠ slot → o.anon s = am.overlay.anon s := by
  have hlt : ¬ am.nslot ≤ slot := by
    have := hfits.within r hmem
    have := hcovers.2
    omega
  cases replace with
  | true =>
    have hsome := hused.mpr rfl
    refine ⟨am.overlay.replace slot anon, ?_, hfits.overlay.replace hsome,
      fun s hne => update_of_ne hne _ _⟩
    simp [Uvm.amapAdd, hlt, Option.isSome_iff_ne_none.mp hsome]
  | false =>
    have hnone : am.overlay.anon slot = none := by simpa using hused
    refine ⟨am.overlay.insert slot anon, ?_, hfits.overlay.insert hnone,
      fun s hne => update_of_ne hne _ _⟩
    simp [Uvm.amapAdd, hlt, hnone]

theorem Amap.Fits.amapUnadd (hmem : r ∈ refs)
    (hcovers : r.Covers slot) (hused : (am.overlay.anon slot).isSome) :
    amapUnadd am slot = some { am with overlay := am.overlay.remove slot } := by
  have hlt : ¬ (am.nslot ≤ slot ∨ (am.overlay.anon slot).isNone) := by
    have := hfits.within r hmem
    have := hcovers.2
    simp only [Option.isNone_iff_eq_none, not_or]
    exact ⟨by omega, Option.isSome_iff_ne_none.mp hused⟩
  rw [Uvm.amapUnadd, if_neg hlt]

end

theorem amapStep_settled (hs : Counts s) (hproper : call.Proper s) (hcounted : call.Counted s) :
    ∃ s', amapStep s call = some s' ∧ Settled call s s' := by
  cases call with
  | alloc id slots padslots totalslots =>
    obtain ⟨hfree, hpos, hle⟩ := hproper
    refine ⟨_, rfl, (Settled.refl hs).update ?_ (by simp [hfree])⟩
    rintro _ ⟨⟩
    exact amapAlloc_ok hpos (by omega) Overlay.empty_ok fun _ _ => rfl
  | splitref id orig left allocated =>
    obtain ⟨h, hid, hmem, hpos, hlt⟩ := hproper
    obtain ⟨am, heq, hover, hfits⟩ := (hs id h hid).splitref hmem hpos hlt allocated
    exact onHeld_settled_some hs hid hfits (fun slot _ => by rw [hover]) (by rw [heq]; rfl)
  | ref id new all allocated =>
    obtain ⟨h, hid, hpos, hle, hall⟩ := hproper
    obtain ⟨am, heq, hfits, hkept⟩ := (hs id h hid).amapRef hpos hle hall
      (fun hnull => hcounted h hid ((ppIsNull_iff _).mpr hnull)) allocated
    exact onHeld_settled_some hs hid hfits hkept (by rw [heq]; rfl)
  | unref id old all allocated =>
    obtain ⟨h, hid, hmem, hall⟩ := hproper
    obtain ⟨hlast, heq⟩ | ⟨am, heq, hfits, hkept⟩ := (hs id h hid).amapUnref hmem hall allocated
    · exact onHeld_settled hs hid (x := none) (by rw [heq]; rfl) nofun
        ⟨old, all, allocated, rfl, hlast⟩
    · exact onHeld_settled_some hs hid hfits hkept (by rw [heq]; rfl)
  | extend id aref slotadd slotalloc newppref newsl =>
    obtain ⟨h, hid, hmem, hadd, halloc⟩ := hproper
    obtain ⟨am, error, refs, heq, hrefs, hfits, hkept⟩ := (hs id h hid).amapExtend hmem hadd halloc
      (fun hnull => hcounted h hid ((ppIsNull_iff _).mpr hnull)) newppref newsl
    exact onHeld_settled_some hs hid hfits hkept (by rw [heq, Option.map_some, ← hrefs])
  | copy id aref new totalslots =>
    obtain ⟨hfree, hle, h, hid, hmem⟩ := hproper
    simp only [amapStep, Option.mem_def.mp hid, Option.bind_some]
    split
    next hone => exact ⟨s, rfl, Settled.refl hs⟩
    next hone =>
      have hfits := hs id h hid
      obtain ⟨old, heq, hfits', hkept⟩ := hfits.drop hmem hone
      obtain ⟨hok, hanon⟩ := copyAnons_spec h.amap.overlay aref.pageoff aref.slots
      simp only [amapCopy, heq]
      refine ⟨_, rfl, ((Settled.refl hs).update ?_ ?_).update ?_ (by simp [hfree])⟩
      · rintro _ ⟨⟩
        exact hfits'
      · intro h₁ hh
        obtain rfl := Option.mem_unique hid hh
        exact fun slot hc _ => hkept slot hc
      · rintro _ ⟨⟩
        exact amapAlloc_ok (hfits.within aref hmem).1 hle hok fun s hs => by
          rw [hanon, if_neg (by omega)]
  | add id aref slot anon replace =>
    obtain ⟨h, hid, hmem, hcovers, hused⟩ := hproper
    obtain ⟨o, heq, hok, hsame⟩ := (hs id h hid).amapAdd hmem hcovers hused anon
    refine onHeld_settled hs hid (x := some ⟨{ h.amap with overlay := o }, h.refs⟩)
      (by rw [heq]; rfl) ?_ fun slot' _ hw => hsame slot' fun hslot => hw ⟨rfl, hslot.symm⟩
    rintro _ ⟨⟩
    exact (hs id h hid).write hmem hcovers hok hsame
  | unadd id aref slot =>
    obtain ⟨h, hid, hmem, hcovers, hused⟩ := hproper
    have hsame : ∀ s, s ≠ slot → (h.amap.overlay.remove slot).anon s = h.amap.overlay.anon s := by
      intro s hne
      rw [Overlay.remove_anon, update_of_ne hne]
    refine onHeld_settled hs hid
      (x := some ⟨{ h.amap with overlay := h.amap.overlay.remove slot }, h.refs⟩)
      (by rw [(hs id h hid).amapUnadd hmem hcovers hused]; rfl) ?_
      fun slot' _ hw => hsame slot' fun hslot => hw ⟨rfl, hslot.symm⟩
    rintro _ ⟨⟩
    exact (hs id h hid).write hmem hcovers ((hs id h hid).overlay.remove hused) hsame

/-- After any run of proper calls that keep to the condition, the references of every amap
are counted right, and the next such call returns, keeps them so and releases no anon of a
slot that is covered. -/
theorem amap_references_counted {s : Amaps}
    (hrun : Run.GuardedRun amapStep (fun s call => call.Proper s ∧ call.Counted s)
      (fun _ => none) s) :
    Counts s ∧ ∀ call : AmapCall, call.Proper s → call.Counted s →
      ∃ s', amapStep s call = some s' ∧ Settled call s s' := by
  have hcounts : Counts s := by
    refine hrun.invariant (fun id h hh => by cases hh) ?_
    intro before call after hbefore hguard hstep
    obtain ⟨s', heq, hafter⟩ := amapStep_settled hbefore hguard.1 hguard.2
    obtain rfl : s' = after := Option.some.inj (heq.symm.trans hstep)
    exact hafter.counts
  exact ⟨hcounts, fun call => amapStep_settled hcounts⟩

/-- An entry of four slots is clipped, its first half is shared, and its second half, with
an anon in one slot, is copied and unmapped. -/
def clippedAndShared : List AmapCall :=
  [.alloc 0 4 0 4, .splitref 0 ⟨0, 4⟩ 2 true, .ref 0 ⟨0, 2⟩ false true,
    .add 0 ⟨2, 2⟩ 3 7 false, .copy 0 ⟨2, 2⟩ 1 2, .unref 0 ⟨0, 2⟩ false true]

theorem amap_references_counted_clipped :
    let s := Run.execD amapStep (fun s call => call.Proper s ∧ call.Counted s) (fun _ => none)
      clippedAndShared
    (s 0).map (fun h => (h.amap.ref, h.amap.overlay.nused)) = some (1, 0) ∧
      (s 1).map (fun h => h.amap.overlay.anon 1) = some (some 7) ∧ Counts s :=
  ⟨by decide +kernel, by decide +kernel,
    (amap_references_counted (Run.GuardedRun.of_execD (by decide +kernel))).1⟩

theorem Tiles.first (htiles : Tiles p c 0 b) (hpos : 0 < b) : (ppGetreflen p 0).1 = c 0 := by
  cases htiles with
  | nil => omega
  | chunk hchunk hcount _ => rw [hchunk.1, hcount 0 le_rfl (by have := hchunk.2.1; omega)]

/-- A partial reference to an amap that has no array yet: the array is created after the new
reference was counted, so that its slots are counted once too often. -/
def firstPartial : List AmapCall := [.alloc 0 2 0 2, .ref 0 ⟨0, 1⟩ false true]

theorem partial_reference_miscounted :
    ∃ s, Run.GuardedRun amapStep (fun s call => call.Proper s) (fun _ => none) s ∧ ¬ Counts s := by
  refine ⟨Run.execD amapStep (fun s call => call.Proper s) (fun _ => none) firstPartial,
    Run.GuardedRun.of_execD (by decide +kernel), fun hcounts => ?_⟩
  have hfits := hcounts 0 _ rfl
  have hfirst := (hfits.tiles _ rfl).first (by decide +kernel)
  exact absurd hfirst (by decide +kernel)

/-! ## Mappings of one address space -/

/-- What the operations on the entries of a map do with their amaps: `uvm_map_p` makes an
entry with an amap of its own or extends the entry before, `uvm_map_clip_start` and
`uvm_map_clip_end` split the reference of an entry, `uvm_unmap_remove` gives it up, and faults
fill and empty slots. -/
inductive MapOp where
  | map (id slots padslots totalslots : ℕ)
  | mapBehind (id : ℕ) (aref : Aref) (slotadd slotalloc : ℕ) (newppref newsl : Bool)
  | clip (id : ℕ) (orig : Aref) (leftslots : ℕ) (allocated : Bool)
  | unmap (id : ℕ) (old : Aref) (all allocated : Bool)
  | fault (id : ℕ) (aref : Aref) (slot anon : ℕ) (replace : Bool)
  | release (id : ℕ) (aref : Aref) (slot : ℕ)

def MapOp.toCall : MapOp → AmapCall
  | .map id slots padslots totalslots => .alloc id slots padslots totalslots
  | .mapBehind id aref slotadd slotalloc newppref newsl =>
    .extend id aref slotadd slotalloc newppref newsl
  | .clip id orig left allocated => .splitref id orig left allocated
  | .unmap id old all allocated => .unref id old all allocated
  | .fault id aref slot anon replace => .add id aref slot anon replace
  | .release id aref slot => .unadd id aref slot

/-- A shared amap is not extended: `uvm_map_p` then makes a new entry without an amap. -/
def mapStep (s : Amaps) (op : MapOp) : Option Amaps :=
  match op with
  | .mapBehind id .. =>
    (s id).bind fun h => if h.amap.ref ≠ 1 then some s else amapStep s op.toCall
  | _ => amapStep s op.toCall

theorem mapStep_counts {op : MapOp} (hs : Counts s) (hproper : op.toCall.Proper s) :
    ∃ s', mapStep s op = some s' ∧ Counts s' := by
  cases op with
  | mapBehind amap aref slotadd slotalloc newppref newsl =>
    obtain ⟨h, hid, -⟩ := id hproper
    simp only [mapStep, Option.mem_def.mp hid, Option.bind_some]
    split
    next => exact ⟨s, rfl, hs⟩
    next hone =>
      have hcounted : AmapCall.Counted s (.extend amap aref slotadd slotalloc newppref newsl) := by
        intro h' hh _
        obtain rfl := Option.mem_unique hid hh
        exact not_not.mp hone
      obtain ⟨s', heq, hsettled⟩ := amapStep_settled hs hproper hcounted
      exact ⟨s', heq, hsettled.counts⟩
  | map | clip | unmap | fault | release =>
    obtain ⟨s', heq, hsettled⟩ := amapStep_settled hs hproper trivial
    exact ⟨s', heq, hsettled.counts⟩

/-- Whether `am_ppref` is `PPREF_NONE`, which a failed allocation leaves. -/
def Amap.ppIsUnused (am : Amap) : Bool :=
  match am.ppref with
  | .unused => true
  | _ => false

theorem Held.Ok.behind (hok : h.Ok) (hone : h.amap.ref = 1) (hmem : r ∈ h.refs)
    (hused : h.amap.ppIsUnused = false) (hslot : r.pageoff + r.slots ≤ slot) :
    h.amap.overlay.anon slot = none := by
  cases hpp : h.amap.ppref with
  | null =>
    apply hok.beyond
    rw [hok.whole hpp r hmem] at hslot
    simpa using hslot
  | unused => simp [Amap.ppIsUnused, hpp] at hused
  | array p =>
    obtain ⟨r', hr'⟩ := length_eq_one_iff.mp (hok.ref.symm.trans hone)
    apply hok.empty p hpp
    apply covering_eq_zero
    rw [hr'] at hmem ⊢
    intro r₁ hr₁
    rw [mem_singleton.mp hr₁, ← mem_singleton.mp hmem]
    exact hslot

/-- An entry that is extended over slots of an amap whose counts were never given up gets
empty slots only. -/
theorem extension_covers_empty_slots {s : Amaps}
    (hrun : Run.GuardedRun mapStep (fun s op => op.toCall.Proper s) (fun _ => none) s)
    {id slotadd slotalloc : ℕ} {aref : Aref} {newppref newsl : Bool}
    (hproper : AmapCall.Proper s (.extend id aref slotadd slotalloc newppref newsl))
    (hused : ∀ h ∈ s id, h.amap.ppIsUnused = false) :
    ∃ s', mapStep s (.mapBehind id aref slotadd slotalloc newppref newsl) = some s' ∧
      ∀ h ∈ s id, h.amap.ref = 1 → ∀ h' ∈ s' id,
        ⟨aref.pageoff, aref.slots + slotadd⟩ ∈ h'.refs → ∀ slot, aref.pageoff + aref.slots ≤ slot →
          slot < aref.pageoff + aref.slots + slotadd → h'.amap.overlay.anon slot = none := by
  have hcounts : Counts s := by
    refine hrun.invariant (fun id h hh => by cases hh) ?_
    intro before op after hbefore hguard hstep
    obtain ⟨s', heq, hafter⟩ := mapStep_counts hbefore hguard
    obtain rfl : s' = after := Option.some.inj (heq.symm.trans hstep)
    exact hafter
  obtain ⟨h, hid, hmem, hadd, halloc⟩ := hproper
  have hok := hcounts id h hid
  by_cases hone : h.amap.ref = 1
  · obtain ⟨am, error, refs, heq, hrefs, hfits, hkept⟩ := hok.amapExtend hmem hadd halloc
      (fun _ => hone) newppref newsl
    refine ⟨update s id (some ⟨am, refs⟩), ?_, ?_⟩
    · simp [mapStep, MapOp.toCall, amapStep, Amaps.onHeld, Option.mem_def.mp hid, hone, heq,
      ← hrefs]
    · rw [update_self]
      rintro _ _ _ _ ⟨⟩ hextended slot hslot hlt
      have hcovers : covering refs slot ≠ 0 := by
        intro hzero
        have hout := countP_eq_zero.mp hzero _ hextended
        rw [decide_eq_true_eq] at hout
        exact hout ⟨by simp only; omega, by simp only; omega⟩
      rw [hkept slot hcovers]
      exact hok.behind hone hmem (hused h hid) hslot
  · refine ⟨s, by simp [mapStep, Option.mem_def.mp hid, hone], fun h' hh hone' => ?_⟩
    obtain rfl := Option.mem_unique hid hh
    exact absurd hone' hone

/-- Two slots are clipped, the second half is unmapped with its anon, and the first half is
extended again. -/
def clippedAndUnmapped : List MapOp :=
  [.map 0 2 0 2, .fault 0 ⟨0, 2⟩ 1 7 false, .clip 0 ⟨0, 2⟩ 1 true, .unmap 0 ⟨1, 1⟩ false true]

theorem extension_covers_empty_slots_clipped :
    let s := Run.execD mapStep (fun s op => op.toCall.Proper s) (fun _ => none) clippedAndUnmapped
    (s 0).map (fun h => h.amap.ref) = some 1 ∧
      ∃ s', mapStep s (.mapBehind 0 ⟨0, 1⟩ 1 2 true true) = some s' ∧
        ∀ h ∈ s' 0, ⟨0, 2⟩ ∈ h.refs → h.amap.overlay.anon 1 = none := by
  intro s
  have href : (s 0).map (fun h => h.amap.ref) = some 1 := by decide +kernel
  obtain ⟨h, hid, hone⟩ := Option.map_eq_some_iff.mp href
  have hproper : AmapCall.Proper s (.extend 0 ⟨0, 1⟩ 1 2 true true) := by decide +kernel
  obtain ⟨s', heq, hfresh⟩ := extension_covers_empty_slots
    (Run.GuardedRun.of_execD (by decide +kernel)) hproper (by decide +kernel)
  exact ⟨href, s', heq, fun h' hh hmem => hfresh h hid hone h' hh hmem 1 le_rfl (by decide)⟩

/-- If the allocation in `amap_pp_establish` fails, the anon of the slot that was unmapped is
still there. -/
def clippedWithoutCounts : List MapOp :=
  [.map 0 2 0 2, .fault 0 ⟨0, 2⟩ 1 7 false, .clip 0 ⟨0, 2⟩ 1 false, .unmap 0 ⟨1, 1⟩ false true,
    .mapBehind 0 ⟨0, 1⟩ 1 2 true true]

theorem unmapped_anon_exposed :
    ∃ s, Run.GuardedRun mapStep (fun s op => op.toCall.Proper s) (fun _ => none) s ∧
      (s 0).map (fun h => (h.refs, h.amap.overlay.anon 1)) = some ([⟨0, 2⟩], some 7) :=
  ⟨Run.execD mapStep (fun s op => op.toCall.Proper s) (fun _ => none) clippedWithoutCounts,
    Run.GuardedRun.of_execD (by decide +kernel), by decide +kernel⟩

end AerieKernel.Uvm
