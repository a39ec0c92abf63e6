import HarborKernel.SpaceIsolation

/-!
What `poke_user` writes. The copy is cut at page boundaries because the text pages are frames of
their own; a byte of the text lies in the frame recorded for its page, which is where the page
tables send the address of that byte.
-/

namespace HarborKernel.AddressSpaces

open ByteWords ErrorState Paging PageWalk

def AddressSpace.textByte (space : AddressSpace) (k : ℕ) : ℕ :=
  space.textPhys (k / frameSize) + k % frameSize

structure TextApart (space : AddressSpace) : Prop where
  frame : space.window.frame = frameSize
  aligned : ∀ i < space.window.textPages, space.textPhys i % frameSize = 0
  distinct : ∀ i < space.window.textPages, ∀ j < space.window.textPages,
    space.textPhys i = space.textPhys j → i = j
  nonzero : ∀ i < space.window.textPages, space.textPhys i ≠ 0

section Copy

variable {space : AddressSpace} {k j : ℕ}

theorem page_lt (hk : k < space.window.textPages * frameSize) :
    k / frameSize < space.window.textPages :=
  (Nat.div_lt_iff_lt_mul (by decide)).2 hk

theorem TextApart.textByte_inj (h : TextApart space)
    (hk : k < space.window.textPages * frameSize) (hj : j < space.window.textPages * frameSize)
    (heq : space.textByte k = space.textByte j) : k = j := by
  have hpos : 0 < frameSize := by decide
  have hpage : ∀ {k : ℕ}, k < space.window.textPages * frameSize →
      pageOf (space.textByte k) = space.textPhys (k / frameSize) :=
    fun hk => pageOf_add (h.aligned _ (page_lt hk)) (Nat.mod_lt _ hpos)
  have hphys : space.textPhys (k / frameSize) = space.textPhys (j / frameSize) := by
    rw [← hpage hk, ← hpage hj, heq]
  have hsame := h.distinct _ (page_lt hk) _ (page_lt hj) hphys
  unfold AddressSpace.textByte at heq
  rw [hphys] at heq
  have hmod : k % frameSize = j % frameSize := Nat.add_left_cancel heq
  have hkdiv := Nat.div_add_mod k frameSize
  have hjdiv := Nat.div_add_mod j frameSize
  rw [hsame, hmod] at hkdiv
  exact hkdiv.symm.trans hjdiv

theorem textByte_add (hj : k % frameSize + j < frameSize) :
    space.textByte (k + j) = space.textPhys (k / frameSize) + k % frameSize + j := by
  have hdiv : (k + j) / frameSize = k / frameSize := by
    unfold frameSize at *
    omega
  have hmod : (k + j) % frameSize = k % frameSize + j := by
    unfold frameSize at *
    omega
  unfold AddressSpace.textByte
  rw [hdiv, hmod, Nat.add_assoc]

structure Copied (offset : ℕ) (bytes : List UInt8) (written : ℕ) (s s' : Sys) : Prop where
  space : s'.space = s.space
  copied : ∀ i, written ≤ i → i < bytes.length →
    s'.world.mem (s.space.textByte (offset + i)) = bytes.getD i 0
  others : ∀ a, (∀ i, written ≤ i → i < bytes.length → a ≠ s.space.textByte (offset + i)) →
    s'.world.mem a = s.world.mem a

theorem pokeFrom_copies {offset : ℕ} {bytes : List UInt8} (n : ℕ) :
    ∀ (written : ℕ) (s : Sys), TextApart s.space →
      offset + bytes.length ≤ s.space.window.textPages * frameSize →
      bytes.length ≤ written + n →
      wp (pokeFrom offset bytes n written) s (fun _ s' => Copied offset bytes written s s')
        fun _ _ => False := by
  induction n with
  | zero =>
    intro written s _ _ hn
    exact ⟨rfl, fun i hi hlt => by omega, fun _ _ => rfl⟩
  | succ n ih =>
    intro written s h hlen hn
    rw [pokeFrom]
    split
    · exact ⟨rfl, fun i hi hlt => by omega, fun _ _ => rfl⟩
    rename_i hmore
    have hpos : 0 < frameSize := by decide
    have hinside : offset + written < s.space.window.textPages * frameSize := by omega
    have hin : (offset + written) % frameSize < frameSize := Nat.mod_lt _ hpos
    rw [wp_bind, wp_get]
    dsimp only
    rw [h.frame, if_neg (h.nonzero _ (page_lt hinside)), wp_bind, wp_modify]
    set take := min (frameSize - (offset + written) % frameSize) (bytes.length - written)
      with htake
    have htake1 : 1 ≤ take := by omega
    have hbyte : ∀ j < take, s.space.textByte (offset + (written + j)) =
        s.space.textPhys ((offset + written) / frameSize) + (offset + written) % frameSize + j := by
      intro j hj
      rw [← Nat.add_assoc]
      exact textByte_add (by omega)
    refine wp.mono (ih (written + take) _ h hlen (by omega)) ?_ fun _ _ hfalse => hfalse
    intro _ s' hcopied
    refine ⟨hcopied.space, ?_, ?_⟩
    · intro i hi hlt
      by_cases hnow : i < written + take
      · -- this byte was copied in this turn, and no later turn comes back to it
        obtain ⟨j, rfl⟩ := Nat.exists_eq_add_of_le hi
        have hlater := hcopied.others (s.space.textByte (offset + (written + j))) (by
          intro i' hi' hlt' heq
          have hsame := h.textByte_inj (by omega) (by omega) heq
          omega)
        have hj : j < take := by omega
        rw [hlater, hbyte j hj]
        simp only [World.write]
        exact blit_inside hj
      · exact hcopied.copied i (by omega) hlt
    · intro a ha
      rw [hcopied.others a fun i hi hlt => ha i (by omega) hlt]
      simp only [World.write]
      apply blit_outside
      by_contra hhit
      obtain ⟨j, hj⟩ := Nat.exists_eq_add_of_le (by omega :
        s.space.textPhys ((offset + written) / frameSize) + (offset + written) % frameSize ≤ a)
      refine ha (written + j) (by omega) (by omega) ?_
      rw [hbyte j (by omega), hj]

end Copy

section Text

variable {K : ℕ → Option Translation} {w : World} {t : Tenant}

/-- The text of a prepared space lies in distinct frames, where the tables send its addresses. -/
theorem Lives.textPhys_eq (h : Lives K w t) (hprep : t.space.prepared = true) :
    ∃ wf : ℕ → ℕ, (∀ i < t.space.window.textPages, t.space.textPhys i = w.phys (wf i)) ∧
      (∀ i < t.space.window.textPages, ∀ j < t.space.window.textPages, wf i = wf j → i = j) ∧
      t.space.window.textPages ≤ maxAsFrames ∧
      ∀ k < t.space.window.textPages * frameSize,
        (t.sys w).translate (t.space.window.base + k) =
          some (t.space.textByte k, .normalWb, Perms.userRx) := by
  obtain ⟨U, wf, hm⟩ := h.mapped hprep
  have hpages : ∀ i < t.space.window.textPages, i < t.space.window.pages :=
    fun i hi => Nat.lt_of_lt_of_le hi h.text
  have htext : ∀ i < t.space.window.textPages, t.space.textPhys i = w.phys (wf i) :=
    fun i hi => hm.window.text i (hpages i hi) (decide_eq_true hi)
  refine ⟨wf, htext, fun i hi j hj => hm.window.inj i (hpages i hi) j (hpages j hj),
    h.text.trans (hm.window.le_owned.trans h.ledger.room), ?_⟩
  intro k hk
  have hindex := page_lt hk
  have hlt := h.pageVa_lt hm (hpages _ hindex)
  have hbase : t.space.window.base % pageSize = 0 := by
    rw [h.base]
    cases w.board <;> decide
  have hsize : pageSize = frameSize := rfl
  have hva : t.space.window.pageVa (k / frameSize) + k % frameSize = t.space.window.base + k := by
    unfold UserWindow.pageVa
    rw [hsize, Nat.add_assoc, Nat.mul_comm, Nat.div_add_mod]
  have hmod : (t.space.window.base + k) % pageSize = k % frameSize := by
    rw [Nat.add_mod, hbase, Nat.zero_add, Nat.mod_mod, hsize]
  have hpage : (t.space.window.base + k) / pageSize =
      vpage (t.space.window.pageVa (k / frameSize)) := by
    rw [h.vpage_pageVa hm (hpages _ hindex), ← hva]
    exact (pageVa_page hbase (Nat.mod_lt k (show 0 < pageSize by decide))).1
  have hv : t.space.window.base + k < vaLimit := by
    have hrest := Nat.mod_lt k (show 0 < frameSize by decide)
    rw [hsize] at hlt
    omega
  rw [hm.translate_own hv (by rw [hpage]; exact hm.window.mapped _ (hpages _ hindex)), hmod]
  have hperms : t.space.window.perms (k / frameSize) = Perms.userRx :=
    if_pos (decide_eq_true hindex)
  simp only [AddressSpace.textByte, htext _ hindex, hperms]

theorem Lives.textApart (h : Lives K w t) (hpool : PoolOk w) (hprep : t.space.prepared = true)
    (hnonzero : ∀ i < t.space.window.textPages, t.space.textPhys i ≠ 0) :
    TextApart t.space := by
  obtain ⟨wf, htext, hinj, _⟩ := h.textPhys_eq hprep
  refine ⟨h.frame, ?_, ?_, hnonzero⟩
  · intro i hi
    rw [htext i hi]
    exact phys_mod hpool.base _
  intro i hi j hj heq
  rw [htext i hi, htext j hj] at heq
  exact hinj i hi j hj (phys_inj heq)

variable {s : Sys} {offset : ℕ} {bytes : List UInt8}

/-- A write outside the text is refused before anything is written. -/
theorem pokeUser_refused (hprep : s.space.prepared = true)
    (h : s.space.window.boundTextWrite offset bytes.length = false) :
    pokeUser offset bytes s = .error .outOfRange s := by
  unfold pokeUser
  rw [bind_ok (show (get : As Sys) s = .ok s s from rfl), hprep, h]
  rfl

/-- A write inside the text copies every byte. -/
theorem pokeUser_copies (hprep : s.space.prepared = true) (h : TextApart s.space)
    (hpages : s.space.window.textPages ≤ maxAsFrames)
    (hlen : offset + bytes.length ≤ s.space.window.textPages * frameSize) :
    ∃ s', pokeUser offset bytes s = .ok () s' ∧ Copied offset bytes 0 s s' := by
  have hbound : s.space.window.boundTextWrite offset bytes.length = true := by
    unfold UserWindow.boundTextWrite UserWindow.textBytes
    rw [h.frame]
    unfold maxAsFrames at hpages
    unfold frameSize at *
    exact decide_eq_true ⟨by omega, hlen⟩
  obtain ⟨_, s', hrun, hcopied⟩ := (pokeFrom_copies bytes.length 0 s h hlen (by omega)).exists_ok
  refine ⟨s', ?_, hcopied⟩
  unfold pokeUser
  rw [bind_ok (show (get : As Sys) s = .ok s s from rfl), hprep, hbound]
  exact hrun

end Text

/-- `poke_user` on a prepared space of any run: bytes inside the text go where their user addresses
translate to, and anything else is refused without a write. -/
theorem poke_user_exact {w₀ : World} (hboot : Boot w₀) {s : Spaces} (hs : Runs w₀ s) {id : ℕ}
    {t : Tenant} (ht : s.tenants id = some t) (hprep : t.space.prepared = true)
    (hnonzero : ∀ i < t.space.window.textPages, t.space.textPhys i ≠ 0) (offset : ℕ)
    (bytes : List UInt8) :
    (offset + bytes.length ≤ t.space.window.textPages * t.space.window.frame →
      ∃ s', pokeUser offset bytes (t.sys s.world) = .ok () s' ∧ s'.space = t.space ∧
        (∀ i < bytes.length, ∃ pa, ((t.sys s.world).translate
            (t.space.window.base + offset + i)).map Prod.fst = some pa ∧
          s'.world.mem pa = bytes.getD i 0) ∧
        ∀ a, (∀ i < bytes.length, ((t.sys s.world).translate
            (t.space.window.base + offset + i)).map Prod.fst ≠ some a) →
          s'.world.mem a = s.world.mem a) ∧
      (¬offset + bytes.length ≤ t.space.window.textPages * t.space.window.frame →
        pokeUser offset bytes (t.sys s.world) = .error .outOfRange (t.sys s.world)) := by
  have hok := runs_ok hboot hs
  have h := hok.lives id t ht
  obtain ⟨wf, _, _, hpages, htranslate⟩ := h.textPhys_eq hprep
  have hapart := h.textApart hok.pool hprep hnonzero
  rw [h.frame]
  refine ⟨?_, ?_⟩
  · intro hlen
    obtain ⟨s', hrun, hcopied⟩ := pokeUser_copies (s := t.sys s.world) hprep hapart hpages hlen
    have hbyte : ∀ i < bytes.length, ((t.sys s.world).translate
        (t.space.window.base + offset + i)).map Prod.fst =
          some (t.space.textByte (offset + i)) := by
      intro i hi
      rw [Nat.add_assoc, htranslate (offset + i) (by omega), Option.map_some]
    refine ⟨s', hrun, hcopied.space, ?_, ?_⟩
    · intro i hi
      exact ⟨_, hbyte i hi, hcopied.copied i (Nat.zero_le i) hi⟩
    intro a ha
    apply hcopied.others
    intro i _ hi heq
    apply ha i hi
    rw [hbyte i hi, heq]
  · intro hlen
    apply pokeUser_refused hprep
    unfold UserWindow.boundTextWrite UserWindow.textBytes
    rw [h.frame]
    exact decide_eq_false fun hboth => hlen hboth.2

/-- Three bytes written across the two text pages of a space, and one byte too many at their
end. -/
theorem poke_user_exact_across :
    ∃ s t, Runs blankWorld s ∧ s.tenants 0 = some t ∧ t.space.prepared = true ∧
      (∃ s', pokeUser 4094 [1, 2, 3] (t.sys s.world) = .ok () s' ∧
        ∀ i < 3, ∃ pa, ((t.sys s.world).translate (t.space.window.base + 4094 + i)).map Prod.fst =
          some pa ∧ s'.world.mem pa = [1, 2, 3].getD i 0) ∧
      pokeUser 8190 [1, 2, 3] (t.sys s.world) = .error .outOfRange (t.sys s.world) := by
  obtain ⟨s, t, -, hs, ht, hp, -, -, -, -, htext, -⟩ := blank_prepared
  have hok := runs_ok blankWorld_boot hs
  have h := hok.lives 0 t ht
  have hnonzero : ∀ i < t.space.window.textPages, t.space.textPhys i ≠ 0 := by
    obtain ⟨wf, hphys, _⟩ := h.textPhys_eq hp
    intro i hi
    have hbase : s.world.poolBase = 0x60000000 := hok.poolBase
    rw [hphys i hi, World.phys, hbase]
    omega
  have hbound : t.space.window.textPages * t.space.window.frame = 8192 := by
    rw [htext, h.frame]
    rfl
  refine ⟨s, t, hs, ht, hp, ?_, ?_⟩
  · obtain ⟨s', hrun, -, hcopied, -⟩ :=
      (poke_user_exact blankWorld_boot hs ht hp hnonzero 4094 [1, 2, 3]).1
        (by rw [hbound]; decide)
    exact ⟨s', hrun, hcopied⟩
  · exact (poke_user_exact blankWorld_boot hs ht hp hnonzero 8190 [1, 2, 3]).2
      (by rw [hbound]; decide)

end HarborKernel.AddressSpaces
