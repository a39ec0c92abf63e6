import Mathlib.Logic.Relation
import Mathlib.Algebra.Ring.Nat
import Mathlib.Data.List.Basic

/-!
The framebuffer request of the property mailbox (`kernel-core/src/mailbox.rs`). A response is a list
of tags, each with a size, a response word and value words. A read outside the slice panics in the
source; such a call has no result here. The scan for a tag checks the tag it returns against the
slice, not against the size that the response announces, and one value word is enough for every
tag; the parser then reads two from the allocation tag.
-/

namespace HarborKernel.Mailbox

def responseSuccess : UInt32 := 0x80000000
def endTag : UInt32 := 0
def tagSetPhysicalWidth : UInt32 := 0x00048003
def tagSetPhysicalHeight : UInt32 := 0x00048004
def tagSetVirtualWidth : UInt32 := 0x00048009
def tagSetVirtualHeight : UInt32 := 0x0004800a
def tagSetDepth : UInt32 := 0x00048005
def tagAllocateBuffer : UInt32 := 0x00040001
def tagGetPitch : UInt32 := 0x00040008

def width : UInt32 := 1024
def height : UInt32 := 768
def depth : UInt32 := 16
def bytesPerPixel : UInt32 := 2

structure FramebufferInfo where
  address : UInt64
  size : UInt32
  width : UInt32
  height : UInt32
  pitch : UInt32
  depth : UInt32
deriving DecidableEq

inductive Error
  | bufferTooSmall
  | requestMalformed
  | firmwareError
  | missingTag (tag : UInt32)
  | badResponse (tag : UInt32)
  | unsupportedMode
  | unalignedAddress
  | invalidSize
deriving DecidableEq

def requestTags : List UInt32 :=
  [tagSetPhysicalWidth, 4, 0, width, tagSetPhysicalHeight, 4, 0, height,
    tagSetVirtualWidth, 4, 0, width, tagSetVirtualHeight, 4, 0, height,
    tagSetDepth, 4, 0, depth, tagAllocateBuffer, 8, 0, 4096, 0, tagGetPitch, 4, 0, 0, endTag]

def buildRequest (room : ℕ) : Except Error (ℕ × List UInt32) :=
  if room < 32 then .error .bufferTooSmall
  else
    let len := requestTags.length + 2
    .ok (len, UInt32.ofNat (len * 4) :: 0 :: requestTags ++ List.replicate (room - len) 0)

def valueWords (size : UInt32) : ℕ := (size / 4).toNat

def findTag (words : List UInt32) (wanted : UInt32) (requireResponse : Bool) :
    ℕ → ℕ → Option (Except Error (ℕ × UInt32))
  | 0, _ => none
  | fuel + 1, pos =>
    if pos < words.length then do
      let tag ← words[pos]?
      if tag = endTag then return .error (.missingTag wanted)
      else if words.length ≤ pos + 2 then return .error .requestMalformed
      else
        let size ← words[pos + 1]?
        if valueWords size = 0 ∨ words.length < pos + 3 + valueWords size then
          return .error .requestMalformed
        else if tag = wanted then
          let response ← words[pos + 2]?
          if requireResponse && (response &&& responseSuccess = 0) then
            return .error (.badResponse tag)
          else return .ok (pos + 3, response)
        else findTag words wanted requireResponse fuel (pos + 3 + valueWords size)
    else some (.error (.missingTag wanted))

def valueAt (words : List UInt32) (wanted : UInt32) : Option (Except Error ℕ) :=
  (findTag words wanted true (words.length + 1) 2).map fun found => found.map Prod.fst

def validate (w h d address size pitch : UInt32) : Except Error FramebufferInfo :=
  if w ≠ width ∨ h ≠ height ∨ d ≠ depth then .error .unsupportedMode
  else if address.toUInt64 = 0 ∨ address.toNat % 4096 ≠ 0 then .error .unalignedAddress
  else if 2 ^ 32 ≤ pitch.toNat * h.toNat then .error .invalidSize
  else if pitch < width * bytesPerPixel ∨ size < pitch * h then .error .invalidSize
  else .ok ⟨address.toUInt64, size, w, h, pitch, d⟩

def parseResponse (words : List UInt32) : Option (Except Error FramebufferInfo) :=
  if words.length < 3 ∨ words.length * 4 < (words.getD 0 0).toNat ∨
      words.getD 1 0 ≠ responseSuccess then
    some (.error (if words[1]? = some 0x80000001 then .firmwareError else .requestMalformed))
  else do
    match ← valueAt words tagSetPhysicalWidth with
    | .error e => return .error e
    | .ok widthAt =>
    match ← valueAt words tagSetPhysicalHeight with
    | .error e => return .error e
    | .ok heightAt =>
    match ← valueAt words tagSetDepth with
    | .error e => return .error e
    | .ok depthAt =>
    match ← valueAt words tagAllocateBuffer with
    | .error e => return .error e
    | .ok bufferAt =>
    match ← valueAt words tagGetPitch with
    | .error e => return .error e
    | .ok pitchAt =>
      let w ← words[widthAt]?
      let h ← words[heightAt]?
      let d ← words[depthAt]?
      let address ← words[bufferAt]?
      let size ← words[bufferAt + 1]?
      let pitch ← words[pitchAt]?
      return validate w h d address size pitch

structure TagAt (words : List UInt32) (pos : ℕ) (tag size response : UInt32) : Prop where
  tag_eq : words[pos]? = some tag
  size_eq : words[pos + 1]? = some size
  response_eq : words[pos + 2]? = some response
  not_end : tag ≠ endTag
  valued : 1 ≤ valueWords size
  fits : pos + 3 + valueWords size ≤ words.length

def Next (words : List UInt32) (a b : ℕ) : Prop :=
  ∃ tag size response, TagAt words a tag size response ∧ b = a + 3 + valueWords size

def Header (words : List UInt32) : ℕ → Prop := Relation.ReflTransGen (Next words) 2

structure First (words : List UInt32) (wanted : UInt32) (pos : ℕ) (size response : UInt32) :
    Prop where
  header : Header words pos
  tag : TagAt words pos wanted size response
  first : ∀ q < pos, Header words q → words[q]? ≠ some wanted

section Walk

variable {words : List UInt32} {a b c : ℕ}

theorem Next.unique (hb : Next words a b) (hc : Next words a c) : b = c := by
  obtain ⟨_, size, _, hsize, rfl⟩ := hb
  obtain ⟨_, size', _, hsize', rfl⟩ := hc
  have heq : size = size' := Option.some.inj (hsize.size_eq.symm.trans hsize'.size_eq)
  rw [heq]

theorem Next.lt (h : Next words a b) : a < b := by
  obtain ⟨_, _, _, _, rfl⟩ := h
  omega

theorem walk_le (h : Relation.ReflTransGen (Next words) a b) : a ≤ b := by
  induction h with
  | refl => exact Nat.le_refl a
  | tail _ hstep ih => exact Nat.le_trans ih (Nat.le_of_lt hstep.lt)

theorem Header.le_or_next (hc : Header words c) (ha : Header words a) (hnext : Next words a b) :
    c ≤ a ∨ b ≤ c := by
  have hunique : Relator.RightUnique (Next words) := fun _ _ _ => Next.unique
  rcases Relation.ReflTransGen.total_of_right_unique hunique hc ha with hback | hforth
  · exact .inl (walk_le hback)
  rcases Relation.ReflTransGen.cases_head hforth with heq | ⟨d, hd, hrest⟩
  · exact .inl (Nat.le_of_eq heq.symm)
  · rw [hnext.unique hd]
    exact .inr (walk_le hrest)

theorem Header.before_end (ha : Header words a) (hnext : Next words a b) (hc : Header words c)
    (hend : words[c]? = some endTag) : b ≤ c := by
  rcases hc.le_or_next ha hnext with hle | hge
  · have hunique : Relator.RightUnique (Next words) := fun _ _ _ => Next.unique
    have hsame : c = a := by
      rcases Relation.ReflTransGen.total_of_right_unique hunique hc ha with hback | hforth
      · rcases Relation.ReflTransGen.cases_head hback with heq | ⟨_, ⟨_, _, _, htag, _⟩, _⟩
        · exact heq
        · exact absurd (Option.some.inj (htag.tag_eq.symm.trans hend)) htag.not_end
      · exact Nat.le_antisymm hle (walk_le hforth)
    obtain ⟨_, _, _, htag, _⟩ := hnext
    rw [hsame] at hend
    exact absurd (Option.some.inj (htag.tag_eq.symm.trans hend)) htag.not_end
  · exact hge

end Walk

variable {words : List UInt32} {size wanted response : UInt32} {pos : ℕ}

/-- The scan ends, and what it returns is the first tag of the wanted kind. -/
theorem findTag_spec (requireResponse : Bool) :
    ∀ (fuel pos : ℕ), words.length < fuel + pos → pos ≤ words.length → Header words pos →
      (∀ q < pos, Header words q → words[q]? ≠ some wanted) →
      ∃ r, findTag words wanted requireResponse fuel pos = some r ∧
        ∀ v response, r = .ok (v, response) → ∃ q size, First words wanted q size response ∧
          v = q + 3 ∧ (requireResponse = true → response &&& responseSuccess ≠ 0) := by
  intro fuel
  induction fuel with
  | zero =>
    intro pos hfuel hpos
    omega
  | succ fuel ih =>
    intro pos hfuel _ hheader hfirst
    rw [findTag]
    by_cases hpos : pos < words.length
    · obtain ⟨tag, htag⟩ : ∃ tag, words[pos]? = some tag := ⟨_, List.getElem?_eq_getElem hpos⟩
      simp only [if_pos hpos, htag, Option.bind_eq_bind, Option.bind_some]
      by_cases hend : tag = endTag
      · rw [if_pos hend]
        exact ⟨_, rfl, nofun⟩
      by_cases hshort : words.length ≤ pos + 2
      · rw [if_neg hend, if_pos hshort]
        exact ⟨_, rfl, nofun⟩
      obtain ⟨size, hsize⟩ : ∃ size, words[pos + 1]? = some size :=
        ⟨_, List.getElem?_eq_getElem (by omega)⟩
      obtain ⟨response, hresponse⟩ : ∃ response, words[pos + 2]? = some response :=
        ⟨_, List.getElem?_eq_getElem (by omega)⟩
      simp only [if_neg hend, if_neg hshort, hsize, Option.bind_some]
      by_cases hbad : valueWords size = 0 ∨ words.length < pos + 3 + valueWords size
      · rw [if_pos hbad]
        exact ⟨_, rfl, nofun⟩
      have hat : TagAt words pos tag size response :=
        ⟨htag, hsize, hresponse, hend, by omega, by omega⟩
      by_cases hwanted : tag = wanted
      · simp only [if_neg hbad, if_pos hwanted, hresponse, Option.bind_some]
        by_cases hflag : (requireResponse && decide (response &&& responseSuccess = 0)) = true
        · rw [if_pos hflag]
          exact ⟨_, rfl, nofun⟩
        rw [if_neg hflag]
        refine ⟨_, rfl, ?_⟩
        intro v response' heq
        cases heq
        refine ⟨pos, size, ⟨hheader, hwanted ▸ hat, hfirst⟩, rfl, ?_⟩
        intro hrequire hzero
        exact hflag (by rw [hrequire, decide_eq_true hzero, Bool.true_and])
      · rw [if_neg hbad, if_neg hwanted]
        have hnext : Next words pos (pos + 3 + valueWords size) := ⟨tag, size, response, hat, rfl⟩
        refine ih (pos + 3 + valueWords size) (by omega) hat.fits (hheader.tail hnext) ?_
        intro q hq hheaderq
        rcases hheaderq.le_or_next hheader hnext with hle | hge
        · rcases Nat.eq_or_lt_of_le hle with heq | hlt
          · rw [heq, htag]
            exact fun h => hwanted (Option.some.inj h)
          · exact hfirst q hlt hheaderq
        · omega
    · rw [if_neg hpos]
      exact ⟨_, rfl, nofun⟩

def Answered (words : List UInt32) (wanted : UInt32) (q : ℕ) : Prop :=
  ∃ size response, First words wanted q size response ∧ response &&& responseSuccess ≠ 0

theorem findTag_first {q : ℕ} (h : First words wanted q size response)
    (hresponse : response &&& responseSuccess ≠ 0) :
    ∀ (fuel pos : ℕ), words.length < fuel + pos → Header words pos →
      Relation.ReflTransGen (Next words) pos q →
      findTag words wanted true fuel pos = some (.ok (q + 3, response)) := by
  intro fuel
  induction fuel with
  | zero =>
    intro pos hfuel _ hpath
    have hle := walk_le hpath
    have hfits := h.tag.fits
    omega
  | succ fuel ih =>
    intro pos hfuel hheader hpath
    rcases Relation.ReflTransGen.cases_head hpath with rfl | ⟨b, hnext, hrest⟩
    · have hfits := h.tag.fits
      have hvalued := h.tag.valued
      have hbad : ¬(valueWords size = 0 ∨ words.length < pos + 3 + valueWords size) := by omega
      simp only [findTag, if_pos (show pos < words.length by omega), h.tag.tag_eq, h.tag.size_eq,
        h.tag.response_eq, Option.bind_eq_bind, Option.bind_some, if_neg h.tag.not_end,
        if_neg (show ¬words.length ≤ pos + 2 by omega), if_neg hbad, if_true, Bool.true_and,
        decide_eq_false hresponse, Bool.false_eq_true, if_false]
      rfl
    · have hlt := Nat.lt_of_lt_of_le hnext.lt (walk_le hrest)
      have hrestart := ih b (by have := hnext.lt; omega) (hheader.tail hnext) hrest
      obtain ⟨tag, size', response', hat, rfl⟩ := hnext
      have hfits := hat.fits
      have hvalued := hat.valued
      have hbad : ¬(valueWords size' = 0 ∨ words.length < pos + 3 + valueWords size') := by omega
      have hother : tag ≠ wanted := by
        rintro rfl
        exact h.first pos hlt hheader hat.tag_eq
      simp only [findTag, if_pos (show pos < words.length by omega), hat.tag_eq, hat.size_eq,
        Option.bind_eq_bind, Option.bind_some, if_neg hat.not_end,
        if_neg (show ¬words.length ≤ pos + 2 by omega), if_neg hbad, if_neg hother]
      exact hrestart

theorem valueAt_answered {q : ℕ} (h : Answered words wanted q) :
    valueAt words wanted = some (.ok (q + 3)) := by
  obtain ⟨size, response, hfirst, hresponse⟩ := h
  rw [valueAt, findTag_first hfirst hresponse _ 2 (by omega) .refl hfirst.header]
  rfl

theorem valueAt_spec (hlen : 3 ≤ words.length) (wanted : UInt32) :
    ∃ r, valueAt words wanted = some r ∧
      ∀ v, r = .ok v → ∃ q, Answered words wanted q ∧ v = q + 3 := by
  have hbefore : ∀ q < 2, Header words q → words[q]? ≠ some wanted := by
    intro q hq hheader
    have hge := walk_le hheader
    omega
  obtain ⟨r, hr, hspec⟩ := @findTag_spec words wanted true (words.length + 1) 2 (by omega)
    (by omega) .refl hbefore
  refine ⟨r.map Prod.fst, by rw [valueAt, hr, Option.map_some], ?_⟩
  intro v hv
  cases r with
  | error e => cases hv
  | ok found =>
    cases hv
    obtain ⟨q, size, hfirst, hq, hresponse⟩ := hspec found.1 found.2 rfl
    exact ⟨q, ⟨size, found.2, hfirst, hresponse rfl⟩, hq⟩

def announced (words : List UInt32) : ℕ := (words.getD 0 0).toNat / 4

/-- The list of tags is closed by an end tag inside the announced words. -/
def Closed (words : List UInt32) : Prop :=
  ∃ stop, Header words stop ∧ words[stop]? = some endTag ∧ stop < announced words

/-- An allocation tag announces both of the words it answers with. -/
def Sized (words : List UInt32) : Prop :=
  ∀ q size response, First words tagAllocateBuffer q size response → 2 ≤ valueWords size

/-- The first tag of a kind answers with so many value words inside the announced words. -/
def Answers (words : List UInt32) (wanted : UInt32) (count q : ℕ) : Prop :=
  ∃ size response, First words wanted q size response ∧ response &&& responseSuccess ≠ 0 ∧
    count ≤ valueWords size ∧ q + 3 + valueWords size ≤ announced words

theorem First.unique {q q' : ℕ} {size' response' : UInt32}
    (h : First words wanted q size response) (h' : First words wanted q' size' response') :
    q = q' := by
  rcases Nat.lt_trichotomy q q' with hlt | heq | hlt
  · exact absurd h.tag.tag_eq (h'.first q hlt h.header)
  · exact heq
  · exact absurd h'.tag.tag_eq (h.first q' hlt h'.header)

theorem Answers.answered {count q : ℕ} (h : Answers words wanted count q) :
    Answered words wanted q := by
  obtain ⟨size, response, hfirst, hresponse, -⟩ := h
  exact ⟨size, response, hfirst, hresponse⟩

theorem Answered.unique {q q' : ℕ} (h : Answered words wanted q) (h' : Answered words wanted q') :
    q = q' := by
  obtain ⟨_, _, hfirst, -⟩ := h
  obtain ⟨_, _, hfirst', -⟩ := h'
  exact hfirst.unique hfirst'

theorem Answered.value {q : ℕ} (h : Answered words wanted q) :
    words[q + 3]? = some (words.getD (q + 3) 0) := by
  obtain ⟨size, response, hfirst, -⟩ := h
  have hfits := hfirst.tag.fits
  have hvalued := hfirst.tag.valued
  rw [List.getD_eq_getElem?_getD, List.getElem?_eq_getElem (by omega)]
  rfl

/-- The head of the response is in order, and the first tag of each kind that is read is at its
position and answers. -/
structure Found (words : List UInt32) (w h d b p : ℕ) : Prop where
  length : 3 ≤ words.length
  size : (words.getD 0 0).toNat ≤ words.length * 4
  success : words.getD 1 0 = responseSuccess
  width : Answered words tagSetPhysicalWidth w
  height : Answered words tagSetPhysicalHeight h
  depth : Answered words tagSetDepth d
  buffer : Answered words tagAllocateBuffer b
  pitch : Answered words tagGetPitch p

def verdict (words : List UInt32) (w h d b p : ℕ) : Except Error FramebufferInfo :=
  validate (words.getD (w + 3) 0) (words.getD (h + 3) 0) (words.getD (d + 3) 0)
    (words.getD (b + 3) 0) (words.getD (b + 4) 0) (words.getD (p + 3) 0)

variable {w h d b p : ℕ}

theorem parseResponse_found (hf : Found words w h d b p) :
    parseResponse words =
      if b + 4 < words.length then some (verdict words w h d b p) else none := by
  have hhead : ¬(words.length < 3 ∨ words.length * 4 < (words.getD 0 0).toNat ∨
      words.getD 1 0 ≠ responseSuccess) := by
    rintro (hlen | hsize | hsuccess)
    · exact absurd hf.length (Nat.not_le.2 hlen)
    · exact absurd hf.size (Nat.not_le.2 hsize)
    · exact hsuccess hf.success
  simp only [parseResponse, if_neg hhead, valueAt_answered hf.width, valueAt_answered hf.height,
    valueAt_answered hf.depth, valueAt_answered hf.buffer, valueAt_answered hf.pitch,
    Option.bind_eq_bind, Option.bind_some, hf.width.value, hf.height.value, hf.depth.value,
    hf.buffer.value, hf.pitch.value]
  by_cases hsecond : b + 4 < words.length
  · rw [if_pos hsecond, List.getElem?_eq_getElem (show b + 3 + 1 < words.length from hsecond)]
    simp only [Option.bind_some, verdict, List.getD_eq_getElem?_getD,
      List.getElem?_eq_getElem hsecond, Option.getD_some]
    rfl
  · rw [if_neg hsecond, List.getElem?_eq_none (Nat.le_of_not_lt hsecond)]
    rfl

theorem parseResponse_cases (words : List UInt32) :
    (∃ e, parseResponse words = some (.error e)) ∨ ∃ w h d b p, Found words w h d b p := by
  by_cases hhead : words.length < 3 ∨ words.length * 4 < (words.getD 0 0).toNat ∨
      words.getD 1 0 ≠ responseSuccess
  · exact .inl ⟨_, by rw [parseResponse, if_pos hhead]⟩
  have hlen : 3 ≤ words.length := by omega
  obtain ⟨rw, hrw, hw⟩ := valueAt_spec hlen tagSetPhysicalWidth
  obtain ⟨rh, hrh, hh⟩ := valueAt_spec hlen tagSetPhysicalHeight
  obtain ⟨rd, hrd, hd⟩ := valueAt_spec hlen tagSetDepth
  obtain ⟨rb, hrb, hb⟩ := valueAt_spec hlen tagAllocateBuffer
  obtain ⟨rp, hrp, hp⟩ := valueAt_spec hlen tagGetPitch
  simp only [parseResponse, if_neg hhead, hrw, hrh, hrd, hrb, hrp, Option.bind_eq_bind,
    Option.bind_some]
  cases rw with
  | error e => exact .inl ⟨e, rfl⟩
  | ok widthAt =>
  cases rh with
  | error e => exact .inl ⟨e, rfl⟩
  | ok heightAt =>
  cases rd with
  | error e => exact .inl ⟨e, rfl⟩
  | ok depthAt =>
  cases rb with
  | error e => exact .inl ⟨e, rfl⟩
  | ok bufferAt =>
  cases rp with
  | error e => exact .inl ⟨e, rfl⟩
  | ok pitchAt =>
  obtain ⟨w, hw, -⟩ := hw widthAt rfl
  obtain ⟨h, hh, -⟩ := hh heightAt rfl
  obtain ⟨d, hd, -⟩ := hd depthAt rfl
  obtain ⟨b, hb, -⟩ := hb bufferAt rfl
  obtain ⟨p, hp, -⟩ := hp pitchAt rfl
  have hsuccess : words.getD 1 0 = responseSuccess :=
    not_not.1 fun hne => hhead (.inr (.inr hne))
  exact .inr ⟨w, h, d, b, p, hlen, by omega, hsuccess, hw, hh, hd, hb, hp⟩

/-- Every field that is accepted is a value word of a first tag that lies inside the announced
words. -/
def Inside (words : List UInt32) (w h d b p : ℕ) : Prop :=
  Answers words tagSetPhysicalWidth 1 w ∧ Answers words tagSetPhysicalHeight 1 h ∧
    Answers words tagSetDepth 1 d ∧ Answers words tagAllocateBuffer 2 b ∧
    Answers words tagGetPitch 1 p

theorem Answered.answers {q : ℕ} (ha : Answered words wanted q) (hclosed : Closed words) :
    Answers words wanted 1 q := by
  obtain ⟨size, response, hfirst, hresponse⟩ := ha
  obtain ⟨stop, hstop, hend, hlt⟩ := hclosed
  have hbefore := hfirst.header.before_end ⟨wanted, size, response, hfirst.tag, rfl⟩ hstop hend
  exact ⟨size, response, hfirst, hresponse, hfirst.tag.valued, by omega⟩

/-- A list of tags that is closed inside its own size, with an allocation tag of two words, is read
inside its tags. -/
theorem Found.inside (hf : Found words w h d b p) (hclosed : Closed words)
    (hsized : Sized words) : b + 4 < words.length ∧ Inside words w h d b p := by
  obtain ⟨size, response, hfirst, hresponse, -, hend⟩ := hf.buffer.answers hclosed
  have htwo := hsized b size response hfirst
  have hfits := hfirst.tag.fits
  exact ⟨by omega, hf.width.answers hclosed, hf.height.answers hclosed, hf.depth.answers hclosed,
    ⟨size, response, hfirst, hresponse, htwo, hend⟩, hf.pitch.answers hclosed⟩

theorem parseResponse_returns (hclosed : Closed words) (hsized : Sized words) :
    ∃ r, parseResponse words = some r := by
  rcases parseResponse_cases words with ⟨e, he⟩ | ⟨w, h, d, b, p, hf⟩
  · exact ⟨_, he⟩
  · exact ⟨_, (parseResponse_found hf).trans (if_pos (hf.inside hclosed hsized).1)⟩

def requestWords : List UInt32 := 128 :: 0 :: requestTags

def framePositions : List ℕ := [0, 2, 3, 6, 7, 10, 11, 14, 15, 18, 19, 22, 23, 27, 28, 31]

/-- A firmware that answers in place, and may change every other word of the request, leaves a
list of tags that is closed and sized. -/
theorem closed_of_kept {room len : ℕ} {reply : List UInt32}
    (hbuild : buildRequest room = .ok (len, words)) (hlen : reply.length = words.length)
    (hkept : ∀ i ∈ framePositions, reply[i]? = words[i]?) : Closed reply ∧ Sized reply := by
  unfold buildRequest at hbuild
  by_cases hroom : room < 32
  · rw [if_pos hroom] at hbuild
    cases hbuild
  rw [if_neg hroom] at hbuild
  obtain ⟨rfl, rfl⟩ := Prod.mk.inj (Except.ok.inj hbuild)
  have hwords : ∀ i ∈ framePositions, reply[i]? = requestWords[i]? := by
    intro i hi
    have hfront : ∀ i ∈ framePositions, i < requestWords.length := by decide
    rw [hkept i hi]
    exact List.getElem?_append_left (hfront i hi)
  have hfits : 32 ≤ reply.length := by
    rw [hlen, List.length_append]
    exact Nat.le_add_right 32 _
  have hnext : ∀ p q tag size, (p ∈ framePositions ∧ p + 1 ∈ framePositions) ∧
      requestWords[p]? = some tag ∧ requestWords[p + 1]? = some size ∧ tag ≠ endTag ∧
      1 ≤ valueWords size ∧ q = p + 3 + valueWords size ∧ q < 32 → Next reply p q := by
    rintro p q tag size ⟨⟨hp, hp'⟩, htag, hsize, hne, hvalued, hq, hlt⟩
    exact ⟨tag, size, _, ⟨(hwords p hp).trans htag, (hwords _ hp').trans hsize,
      List.getElem?_eq_getElem (by omega), hne, hvalued, by omega⟩, hq⟩
  have n2 := hnext 2 6 tagSetPhysicalWidth 4 (by decide)
  have n6 := hnext 6 10 tagSetPhysicalHeight 4 (by decide)
  have n10 := hnext 10 14 tagSetVirtualWidth 4 (by decide)
  have n14 := hnext 14 18 tagSetVirtualHeight 4 (by decide)
  have n18 := hnext 18 22 tagSetDepth 4 (by decide)
  have n22 := hnext 22 27 tagAllocateBuffer 8 (by decide)
  have n27 := hnext 27 31 tagGetPitch 4 (by decide)
  have h2 : Header reply 2 := .refl
  have h6 : Header reply 6 := h2.tail n2
  have h10 : Header reply 10 := h6.tail n6
  have h14 : Header reply 14 := h10.tail n10
  have h18 : Header reply 18 := h14.tail n14
  have h22 : Header reply 22 := h18.tail n18
  have h27 : Header reply 27 := h22.tail n22
  have h31 : Header reply 31 := h27.tail n27
  have hend : reply[31]? = some endTag := hwords 31 (by decide)
  refine ⟨⟨31, h31, hend, ?_⟩, ?_⟩
  · have hsize : reply[0]? = some 128 := hwords 0 (by decide)
    rw [announced, List.getD_eq_getElem?_getD, hsize]
    decide
  intro q size response hfirst
  -- the walk comes to no other position than those of the request
  have hq : q = 22 := by
    have hge := walk_le hfirst.header
    have hlt := hfirst.header.before_end ⟨_, _, _, hfirst.tag, rfl⟩ h31 hend
    have c2 := hfirst.header.le_or_next h2 n2
    have c6 := hfirst.header.le_or_next h6 n6
    have c10 := hfirst.header.le_or_next h10 n10
    have c14 := hfirst.header.le_or_next h14 n14
    have c18 := hfirst.header.le_or_next h18 n18
    have c22 := hfirst.header.le_or_next h22 n22
    have c27 := hfirst.header.le_or_next h27 n27
    have hmem : q ∈ framePositions := by
      have hcases : q = 2 ∨ q = 6 ∨ q = 10 ∨ q = 14 ∨ q = 18 ∨ q = 22 ∨ q = 27 := by omega
      rcases hcases with rfl | rfl | rfl | rfl | rfl | rfl | rfl <;> decide
    have hall : ∀ q ∈ framePositions, requestWords[q]? = some tagAllocateBuffer → q = 22 := by
      decide
    exact hall q hmem ((hwords q hmem).symm.trans hfirst.tag.tag_eq)
  subst hq
  have hsize : some size = some 8 :=
    hfirst.tag.size_eq.symm.trans (hwords 23 (by decide))
  rw [Option.some.inj hsize]
  decide

/-- The answer to a request of this kernel is read without a panic, and what is accepted of it was
read inside its tags. -/
theorem request_answered_in_place (room len : ℕ) (words reply : List UInt32)
    (hbuild : buildRequest room = .ok (len, words)) (hlen : reply.length = words.length)
    (hkept : ∀ i ∈ framePositions, reply[i]? = words[i]?) :
    Closed reply ∧ Sized reply ∧ (∃ r, parseResponse reply = some r) ∧
      ∀ w h d b p, Found reply w h d b p → Inside reply w h d b p := by
  obtain ⟨hclosed, hsized⟩ := closed_of_kept hbuild hlen hkept
  exact ⟨hclosed, hsized, parseResponse_returns hclosed hsized,
    fun w h d b p hf => (hf.inside hclosed hsized).2⟩

/-- The firmware has filled in the response words and the values, and no others. -/
def filledReply : List UInt32 :=
  [128, responseSuccess, tagSetPhysicalWidth, 4, 0x80000004, width, tagSetPhysicalHeight, 4,
    0x80000004, height, tagSetVirtualWidth, 4, 0x80000004, width, tagSetVirtualHeight, 4,
    0x80000004, height, tagSetDepth, 4, 0x80000004, depth, tagAllocateBuffer, 8, 0x80000008,
    0x01000000, 0x00180000, tagGetPitch, 4, 0x80000004, 2048, endTag]

theorem request_answered_in_place_filled : buildRequest 32 = .ok (32, requestWords) ∧
    Closed filledReply ∧ Sized filledReply ∧ ∃ r, parseResponse filledReply = some r := by
  have hbuild : buildRequest 32 = .ok (32, requestWords) := rfl
  obtain ⟨hclosed, hsized, hreturns, -⟩ :=
    request_answered_in_place 32 32 requestWords filledReply hbuild rfl (by decide)
  exact ⟨hbuild, hclosed, hsized, hreturns⟩

end HarborKernel.Mailbox
