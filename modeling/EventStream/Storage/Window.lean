import EventStream.Storage.Cursor

/-! The windows of a cursor against decoding the file as a whole (`RecordCursor`).

The cursor reads a window and, if it finds only a part of a record there, reads once more. With
four bytes of the record in hand it knows how much to read; with fewer it reads a window and does
not read again. So it agrees with the plain decoder exactly if the window suffices
(`windowed_eq_plain`): a record longer than the window is read if the window before it happens to
reach into it. -/
namespace EventStream.Storage

namespace RecordCursor

/-! ### Decoding a part of the bytes -/

section
variable {b : Bytes} {pos n len : Nat} {r : Record}

theorem checkBodyLen_eq {raw : Nat} (h : checkBodyLen raw pos = .ok len) : len = raw := by
  unfold checkBodyLen at h
  split at h
  · cases h
  · split at h
    · cases h
    · cases h
      rfl

theorem not_isEmpty_of_length (h : recordLenField ≤ b.length) : ¬b.isEmpty := by
  rw [List.isEmpty_iff, ← List.length_eq_zero_iff]
  rw [recordLenField] at h
  omega

/-- Bytes without a whole length field do not decode. -/
theorem decodeRecord_short (h : b.length < recordLenField) :
    decodeRecord b pos = .error .eof ∨ decodeRecord b pos = .error (.truncated pos) := by
  unfold decodeRecord
  by_cases hempty : b.isEmpty
  · rw [if_pos hempty]
    exact .inl rfl
  · rw [if_neg hempty, if_pos h]
    exact .inr rfl

section
variable (h : recordLenField ≤ b.length)
include h

theorem decodeRecord_invalid {e : RecordDecodeError}
    (hc : checkBodyLen (beNat (b.take 4)) pos = .error e) : decodeRecord b pos = .error e := by
  rw [decodeRecord, if_neg (not_isEmpty_of_length h), if_neg (by omega), hc]
  rfl

theorem decodeRecord_cut (hc : checkBodyLen (beNat (b.take 4)) pos = .ok len)
    (hlen : b.length < claimedLen b) : decodeRecord b pos = .error (.truncated pos) := by
  rw [claimedLen, ← checkBodyLen_eq hc] at hlen
  rw [decodeRecord, if_neg (not_isEmpty_of_length h), if_neg (by omega), hc]
  exact if_pos hlen

theorem decodeRecord_whole (hc : checkBodyLen (beNat (b.take 4)) pos = .ok len)
    (hlen : claimedLen b ≤ b.length) :
    decodeRecord b pos =
      (decodeBody ((b.drop 4).take len) pos).map fun r => (r, claimedLen b) := by
  rw [claimedLen, ← checkBodyLen_eq hc] at hlen ⊢
  rw [decodeRecord, if_neg (not_isEmpty_of_length h), if_neg (by omega), hc]
  simp only [bind, Except.bind]
  rw [if_neg (by omega)]
  cases decodeBody ((b.drop 4).take len) pos <;> rfl

end

/-- A record that is found is as long as its length field says, and all there. -/
theorem decodeRecord_length (h : decodeRecord b pos = .ok (r, n)) :
    recordLenField ≤ n ∧ n = claimedLen b ∧ n ≤ b.length := by
  rcases Nat.lt_or_ge b.length recordLenField with hshort | hfield
  · rcases @decodeRecord_short b pos hshort with hd | hd <;> cases hd.symm.trans h
  · cases hc : checkBodyLen (beNat (b.take 4)) pos with
    | error e => cases (decodeRecord_invalid hfield hc).symm.trans h
    | ok len =>
      rcases Nat.lt_or_ge b.length (claimedLen b) with hcut | hwhole
      · cases (decodeRecord_cut hfield hc hcut).symm.trans h
      · rw [decodeRecord_whole hfield hc hwhole] at h
        cases hbody : decodeBody ((b.drop 4).take len) pos with
        | error e => rw [hbody] at h; cases h
        | ok r' =>
          rw [hbody] at h
          cases h
          exact ⟨Nat.le_add_right .., rfl, hwhole⟩

theorem take_field (h : recordLenField ≤ n) : (b.take n).take 4 = b.take 4 := by
  rw [recordLenField] at h
  rw [List.take_take, Nat.min_eq_left h]

theorem claimedLen_take (h : recordLenField ≤ n) : claimedLen (b.take n) = claimedLen b := by
  rw [claimedLen, claimedLen, take_field h]

/-- As many bytes as the record has decode like all of them. -/
theorem decodeRecord_take (h : claimedLen b ≤ n) :
    decodeRecord (b.take n) pos = decodeRecord b pos := by
  rcases Nat.lt_or_ge n b.length with hn | hn
  · have hfield : recordLenField ≤ n := Nat.le_trans (Nat.le_add_right ..) h
    have hlen : (b.take n).length = n := by rw [List.length_take, Nat.min_eq_left (by omega)]
    have htake : (b.take n).take 4 = b.take 4 := take_field hfield
    have hclaim : claimedLen (b.take n) = claimedLen b := claimedLen_take hfield
    cases hc : checkBodyLen (beNat (b.take 4)) pos with
    | error e =>
      rw [decodeRecord_invalid (by omega) hc, decodeRecord_invalid (by omega) (htake ▸ hc)]
    | ok len =>
      have hwhole := h
      rw [claimedLen, ← checkBodyLen_eq hc, recordLenField] at hwhole
      have hbody : ((b.take n).drop 4).take len = (b.drop 4).take len := by
        rw [List.drop_take, List.take_take, Nat.min_eq_left (by omega)]
      rw [decodeRecord_whole (by omega) hc (by omega), decodeRecord_whole (by omega) (htake ▸ hc)
        (by omega), hbody, hclaim]
  · rw [List.take_of_length_le hn]

/-- A part of the bytes decodes like all of them, or is too short to decode. -/
theorem decodeRecord_take_cases (b : Bytes) (k pos : Nat) :
    decodeRecord (b.take k) pos = decodeRecord b pos ∨
      decodeRecord (b.take k) pos = .error .eof ∨
      decodeRecord (b.take k) pos = .error (.truncated pos) := by
  rcases Nat.lt_or_ge (b.take k).length recordLenField with hshort | hfield
  · exact .inr (decodeRecord_short hshort)
  · have hlen := hfield
    rw [List.length_take] at hlen
    rcases Nat.lt_or_ge k (claimedLen b) with hpart | hall
    · have htake : (b.take k).take 4 = b.take 4 := take_field (by omega)
      cases hc : checkBodyLen (beNat (b.take 4)) pos with
      | error e =>
        rw [decodeRecord_invalid (by omega) hc, decodeRecord_invalid hfield (htake ▸ hc)]
        exact .inl rfl
      | ok len =>
        have hcut : (b.take k).length < claimedLen (b.take k) := by
          rw [claimedLen_take (by omega), List.length_take]
          omega
        exact .inr (.inr (decodeRecord_cut hfield (htake ▸ hc) hcut))
    · exact .inl (decodeRecord_take hall)

end

/-! ### The window of a cursor -/

variable {pos pos' limit window fuel need : Nat} {c : RecordCursor} {file tail : Bytes} {r : Record}
  {rs : List Record}

/-- The window is a piece of the file that begins at or before the cursor. -/
structure Windowed (c : RecordCursor) : Prop where
  buf : c.buf = (c.file.drop c.bufStart).take c.buf.length
  inside : c.bufStart + c.buf.length ≤ max c.bufStart c.limit
  behind : c.bufStart ≤ c.pos
  window : 4096 ≤ c.window

/-- How far the file has been read. -/
def reach (c : RecordCursor) : Nat := c.bufStart + c.buf.length

theorem Windowed.new (file : Bytes) (start limit window : Nat) :
    (new file start limit window).Windowed where
  buf := rfl
  inside := by simp [RecordCursor.new]
  behind := Nat.le_refl _
  window := Nat.le_max_right ..

theorem Windowed.advance (h : c.Windowed) (n : Nat) : (c.advance n).Windowed :=
  ⟨h.buf, h.inside, Nat.le_trans h.behind (Nat.le_add_right ..), h.window⟩

theorem Windowed.refill (h : c.Windowed) (n : Nat) : (c.refill n).Windowed where
  buf := List.prefix_iff_eq_take.mp (List.take_prefix ..)
  inside := by
    show c.pos + (List.take _ _).length ≤ max c.pos c.limit
    rw [List.length_take]
    omega
  behind := Nat.le_refl _
  window := h.window

theorem Windowed.length_buffered (h : c.Windowed) : c.buffered.length = c.reach - c.pos := by
  have hbehind := h.behind
  unfold RecordCursor.buffered reach
  split
  · rw [List.length_nil]
    omega
  · rw [List.length_drop]
    omega

/-- What the window holds are the first of the bytes up to the limit. -/
theorem Windowed.buffered (h : c.Windowed) :
    c.buffered = (plainBytes c.file c.pos c.limit).take (c.reach - c.pos) := by
  have hbehind := h.behind
  unfold RecordCursor.buffered plainBytes reach
  split
  · rw [show c.bufStart + c.buf.length - c.pos = 0 by omega, List.take_zero]
  · have hin := h.inside
    rw [List.take_take, Nat.min_eq_left (by omega)]
    conv_lhs => rw [h.buf, List.drop_take, List.drop_drop]
    rw [show c.bufStart + (c.pos - c.bufStart) = c.pos by omega,
      show c.buf.length - (c.pos - c.bufStart) = c.bufStart + c.buf.length - c.pos by omega]

theorem buf_refill (c : RecordCursor) (n : Nat) :
    (c.refill n).buf = (plainBytes c.file c.pos c.limit).take (max n c.window) := by
  rw [plainBytes, List.take_take]
  rfl

theorem buffered_refill (c : RecordCursor) (n : Nat) :
    (c.refill n).buffered = (plainBytes c.file c.pos c.limit).take (max n c.window) := by
  unfold RecordCursor.buffered
  split
  · rename_i hempty
    have hzero : (c.refill n).buf.length = 0 := by
      have hpos : (c.refill n).pos = (c.refill n).bufStart := rfl
      omega
    rw [← buf_refill, List.length_eq_zero_iff.mp hzero]
  · rw [← buf_refill]
    show List.drop (c.pos - c.pos) _ = _
    rw [Nat.sub_self, List.drop_zero]

theorem reach_refill (c : RecordCursor) (n : Nat) : (c.refill n).reach =
    c.pos + min (max n c.window) (plainBytes c.file c.pos c.limit).length := by
  unfold reach
  rw [buf_refill, List.length_take]
  rfl

/-! ### One record -/

/-- The cursor reads on in the same file. -/
structure Follows (c c' : RecordCursor) : Prop where
  windowed : c'.Windowed
  file : c'.file = c.file
  limit : c'.limit = c.limit
  window : c'.window = c.window
  reach : c'.reach = readUpTo c.file c.limit c.window c.reach c.pos c'.pos

/-- What the plain decoder returns, read off what the cursor returns. -/
def place (found : Option (Record × RecordCursor)) : Option (Record × Nat) :=
  found.map fun f => (f.1, f.2.pos)

/-- The cursor's answer is the plain decoder's. -/
def Agrees (c : RecordCursor)
    (answer : Except RecordDecodeError (Option (Record × RecordCursor))) : Prop :=
  answer.map place = plainNext c.file c.pos c.limit ∧
    ∀ r c', answer = .ok (some (r, c')) → c.Follows c'

theorem agrees_error {e : RecordDecodeError} (h : plainNext c.file c.pos c.limit = .error e) :
    c.Agrees (.error e) := ⟨h.symm, fun _ _ heq => nomatch heq⟩

theorem agrees_none (h : plainNext c.file c.pos c.limit = .ok none) : c.Agrees (.ok none) :=
  ⟨h.symm, fun _ _ heq => nomatch heq⟩

section
variable (h : c.Windowed) (hpos : c.pos < c.limit)
include h hpos

/-- A read that holds the record, or all there is of it, is as good as all the bytes. -/
theorem decodeRefilled_agrees
    (hdecode : decodeRecord ((plainBytes c.file c.pos c.limit).take (max need c.window)) c.pos =
      decodeRecord (plainBytes c.file c.pos c.limit) c.pos)
    (hreach : ∀ r n, decodeRecord (plainBytes c.file c.pos c.limit) c.pos = .ok (r, n) →
      (c.refill need).reach = readUpTo c.file c.limit c.window c.reach c.pos (c.pos + n)) :
    c.Agrees (c.refill need).decodeRefilled := by
  have hrefill : (c.refill need).pos = c.pos := rfl
  unfold Agrees decodeRefilled plainNext
  rw [if_neg (by omega), buffered_refill, hrefill, hdecode]
  cases hd : decodeRecord (plainBytes c.file c.pos c.limit) c.pos with
  | ok found =>
    refine ⟨rfl, fun r c' heq => ?_⟩
    cases heq
    exact ⟨(h.refill need).advance _, rfl, rfl, rfl, hreach _ _ hd⟩
  | error e => cases e <;> exact ⟨rfl, fun r c' heq => nomatch heq⟩

end

/-- Less than a length field up to the limit is a record cut short. -/
theorem plainNext_short (hpos : pos < limit) (hlimit : limit < pos + recordLenField) :
    plainNext file pos limit = .error (.truncated pos) := by
  have hplain : (plainBytes file pos limit).length ≤ limit - pos := List.length_take_le ..
  unfold plainNext
  rw [if_neg (by omega)]
  rcases @decodeRecord_short (plainBytes file pos limit) pos (by omega) with hd | hd <;> rw [hd]

section
variable (h : c.Windowed)
include h

/-- With less than a length field in hand the cursor reads a window. -/
theorem fetch_short (hshort : c.reach < c.pos + recordLenField) :
    c.fetch = if c.limit < c.pos + recordLenField then .error (.truncated c.pos)
      else (c.refill recordLenField).decodeRefilled := by
  have hlen : c.buffered.length < recordLenField := by
    rw [h.length_buffered]
    simp only [recordLenField] at *
    omega
  unfold fetch peekRecordLen
  rw [if_pos hlen]
  rfl

/-- The window is not enough: the record is reported as cut short. -/
theorem fetch_oversized (hshort : c.reach < c.pos + recordLenField)
    (hlong : c.window < claimedLen (plainBytes c.file c.pos c.limit))
    (hpeek : peekRecordLen (plainBytes c.file c.pos c.limit) c.pos =
      .ok (some (claimedLen (plainBytes c.file c.pos c.limit)))) :
    c.fetch = .error (.truncated c.pos) := by
  have hw := h.window
  unfold peekRecordLen at hpeek
  split at hpeek
  · cases hpeek
  rename_i hfield
  obtain ⟨len, hc, -⟩ := bind_eq_ok.mp hpeek
  have hm : recordLenField ≤ max recordLenField c.window := Nat.le_max_left ..
  have hcut : decodeRecord (c.refill recordLenField).buffered c.pos =
      .error (.truncated c.pos) := by
    rw [buffered_refill]
    refine decodeRecord_cut ?_ (by rwa [take_field hm]) ?_
    · rw [List.length_take]
      omega
    · rw [claimedLen_take hm, List.length_take]
      simp only [recordLenField] at *
      omega
  have hrefill : (c.refill recordLenField).pos = c.pos := rfl
  rw [fetch_short h hshort, decodeRefilled, hrefill, hcut]
  exact ite_self _

variable (hfit : c.reach < c.pos + recordLenField → ¬Oversized c.file c.pos c.limit c.window)
  (hpos : c.pos < c.limit)
include hfit hpos

/-- One more read after less than a length field. -/
theorem fetch_short_agrees (hshort : c.reach < c.pos + recordLenField) : c.Agrees c.fetch := by
  have hw := h.window
  by_cases hlong : c.window < claimedLen (plainBytes c.file c.pos c.limit) ∧
      peekRecordLen (plainBytes c.file c.pos c.limit) c.pos =
        .ok (some (claimedLen (plainBytes c.file c.pos c.limit)))
  · rw [fetch_oversized h hshort hlong.1 hlong.2]
    refine agrees_error ?_
    by_contra hplain
    exact hfit hshort ⟨hlong.1, hlong.2, hplain⟩
  rw [fetch_short h hshort]
  split
  · exact agrees_error (plainNext_short hpos ‹_›)
  refine decodeRefilled_agrees h hpos ?_ fun r n hd => ?_
  · rcases Nat.lt_or_ge (max recordLenField c.window)
      (plainBytes c.file c.pos c.limit).length with hmore | hall
    · have hfield : recordLenField ≤ max recordLenField c.window := Nat.le_max_left ..
      cases hc : checkBodyLen (beNat ((plainBytes c.file c.pos c.limit).take 4)) c.pos with
      | error e =>
        rw [decodeRecord_invalid (by omega) hc,
          decodeRecord_invalid (by rw [List.length_take]; omega) (by rwa [take_field hfield])]
      | ok len =>
        refine decodeRecord_take (Nat.le_of_not_lt fun hlt => hlong ⟨by omega, ?_⟩)
        rw [peekRecordLen, if_neg (by omega), hc, checkBodyLen_eq hc]
        rfl
    · rw [List.take_of_length_le hall]
  · obtain ⟨hmin, -, -⟩ := decodeRecord_length hd
    rw [readUpTo, if_neg (by omega), reach_refill, if_neg (by omega)]

theorem fetch_agrees (hcut : decodeRecord c.buffered c.pos = .error .eof ∨
      ∃ q, decodeRecord c.buffered c.pos = .error (.truncated q)) : c.Agrees c.fetch := by
  by_cases hshort : c.reach < c.pos + recordLenField
  · exact fetch_short_agrees h hfit hpos hshort
  have hplain : (plainBytes c.file c.pos c.limit).length ≤ c.limit - c.pos :=
    List.length_take_le ..
  have hlen := h.length_buffered
  have htake : c.buffered.take 4 = (plainBytes c.file c.pos c.limit).take 4 := by
    rw [h.buffered, take_field (by omega)]
  have hfield : recordLenField ≤ (plainBytes c.file c.pos c.limit).length := by
    have := congrArg List.length h.buffered
    rw [List.length_take] at this
    omega
  unfold fetch peekRecordLen
  rw [if_neg (by omega)]
  cases hc : checkBodyLen (beNat (c.buffered.take 4)) c.pos with
  | error e =>
    rw [decodeRecord_invalid (by omega) hc] at hcut
    unfold checkBodyLen at hc
    split at hc
    · cases hc
      rcases hcut with hcut | ⟨_, hcut⟩ <;> cases hcut
    · split at hc
      · cases hc
        rcases hcut with hcut | ⟨_, hcut⟩ <;> cases hcut
      · cases hc
  | ok len =>
    -- The length is known, so the whole record is read.
    have hclaim : claimedLen (plainBytes c.file c.pos c.limit) = recordLenField + len := by
      rw [claimedLen, ← htake, checkBodyLen_eq hc]
    rw [htake] at hc
    simp only [bind, Except.bind, Option.getD_some]
    split
    · refine agrees_error ?_
      rw [plainNext, if_neg (by omega), decodeRecord_cut hfield hc (by omega)]
    · refine decodeRefilled_agrees h hpos (decodeRecord_take (by omega)) fun r n hd => ?_
      obtain ⟨-, hn, -⟩ := decodeRecord_length hd
      have hbeyond : ¬ c.pos + n ≤ c.reach := fun hle => by
        rw [h.buffered, decodeRecord_take (by omega), hd] at hcut
        rcases hcut with hcut | ⟨_, hcut⟩ <;> cases hcut
      rw [readUpTo, if_neg hbeyond, reach_refill, if_pos (by omega), Nat.add_sub_cancel_left, hn,
        hclaim]

end

/-- **One record.** The cursor finds what decoding from all the bytes up to the limit finds, if the
length field has been read or the record is not longer than the window. -/
theorem nextRecord_agrees (h : c.Windowed)
    (hfit : c.reach < c.pos + recordLenField → ¬Oversized c.file c.pos c.limit c.window) :
    c.Agrees c.nextRecord := by
  unfold nextRecord
  by_cases hpos : c.limit ≤ c.pos
  · rw [if_pos hpos]
    refine agrees_none ?_
    rw [plainNext, if_pos hpos]
  rw [if_neg hpos]
  have hsame := decodeRecord_take_cases (plainBytes c.file c.pos c.limit) (c.reach - c.pos) c.pos
  rw [← h.buffered] at hsame
  cases hdecode : decodeRecord c.buffered c.pos with
  | ok found =>
    obtain ⟨r, n⟩ := found
    obtain ⟨hmin, -, hmax⟩ := decodeRecord_length hdecode
    rw [h.length_buffered, recordLenField] at *
    rw [hdecode] at hsame
    refine ⟨?_, fun r c' heq => ?_⟩
    · rw [plainNext, if_neg hpos, ← hsame.resolve_right (by rintro (hd | hd) <;> cases hd)]
      rfl
    · cases heq
      refine ⟨h.advance _, rfl, rfl, rfl, ?_⟩
      have hin : (c.advance n).pos ≤ c.reach := show c.pos + n ≤ c.reach by omega
      rw [readUpTo, if_pos hin]
      rfl
  | error e =>
    have hother (he : e ≠ .eof) (ht : ∀ q, e ≠ .truncated q) : c.Agrees (.error e) := by
      rw [hdecode] at hsame
      rcases hsame with hd | hd | hd
      · refine agrees_error ?_
        rw [plainNext, if_neg hpos, ← hd]
        cases e <;> first | rfl | exact absurd rfl he
      · exact absurd (Except.error.inj hd) he
      · exact absurd (Except.error.inj hd) (ht _)
    cases e with
    | eof => exact fetch_agrees h hfit (by omega) (.inl hdecode)
    | truncated q => exact fetch_agrees h hfit (by omega) (.inr ⟨q, hdecode⟩)
    | crcMismatch q stored computed => exact hother (by simp) (by simp)
    | invalid q reason => exact hother (by simp) (by simp)

/-- A record longer than the window of which less than the length field has been read is reported
as cut short. -/
theorem nextRecord_oversized (h : c.Windowed) (hshort : c.reach < c.pos + recordLenField)
    (hover : Oversized c.file c.pos c.limit c.window) :
    c.nextRecord = .error (.truncated c.pos) := by
  obtain ⟨hlong, hpeek, -⟩ := hover
  have hpos : ¬ c.limit ≤ c.pos := fun hle => by
    rw [plainBytes, Nat.sub_eq_zero_of_le hle, List.take_zero] at hpeek
    cases hpeek
  have hlen : c.buffered.length < recordLenField := by
    rw [h.length_buffered]
    simp only [recordLenField] at *
    omega
  rw [nextRecord, if_neg hpos]
  rcases @decodeRecord_short c.buffered c.pos hlen with hd | hd <;>
    rw [hd] <;> exact fetch_oversized h hshort hlong hpeek

/-! ### The whole range -/

/-- A loop over the cursor is the plain decoder's exactly if the window suffices. -/
theorem walkFuel_eq_iff (h : c.Windowed) :
    walkFuel fuel c = plainWalkFuel c.file c.limit fuel c.pos ↔
      windowSuffices c.file c.limit c.window fuel c.reach c.pos = true := by
  -- One round of the loop is one record of the plain decoder.
  induction fuel generalizing c with
  | zero => exact iff_of_true rfl rfl
  | succ fuel ih =>
    rw [walkFuel, plainWalkFuel, windowSuffices, Bool.and_eq_true, decide_eq_true_eq]
    by_cases hfit : c.reach < c.pos + recordLenField → ¬Oversized c.file c.pos c.limit c.window
    · obtain ⟨hanswer, hfollows⟩ := nextRecord_agrees h hfit
      rw [← hanswer]
      cases hnext : c.nextRecord with
      | error e => exact iff_of_true rfl ⟨hfit, rfl⟩
      | ok found =>
        cases found with
        | none => exact iff_of_true rfl ⟨hfit, rfl⟩
        | some found =>
          obtain ⟨r, c'⟩ := found
          have hc := hfollows r c' hnext
          have hrest := ih hc.windowed
          rw [hc.file, hc.limit, hc.window, hc.reach] at hrest
          refine Iff.trans ?_ (hrest.trans ⟨fun hs => ⟨hfit, hs⟩, And.right⟩)
          refine ⟨fun heq => ?_, fun heq => by dsimp only [Except.map, place, Option.map]; rw [heq]⟩
          obtain ⟨hrecords, hstop, herror⟩ := Walk.mk.inj heq
          exact Walk.ext (List.cons.inj hrecords).2 hstop herror
    · refine iff_of_false (fun heq => ?_) fun hs => hfit hs.1
      obtain ⟨hshort, hover⟩ := Classical.not_imp.mp hfit
      have hover := not_not.mp hover
      rw [nextRecord_oversized h hshort hover] at heq
      have hplain := hover.2.2
      cases hnext : plainNext c.file c.pos c.limit with
      | error e =>
        rw [hnext] at heq hplain
        cases heq
        exact hplain rfl
      | ok found => rw [hnext] at heq; cases found <;> cases heq

/-- Whatever the window, a walk is the plain decoder's, or stops short of it with an error. -/
theorem walkFuel_cases (h : c.Windowed) :
    walkFuel fuel c = plainWalkFuel c.file c.limit fuel c.pos ∨
      (walkFuel fuel c).error ≠ none ∧
        (walkFuel fuel c).records <+: (plainWalkFuel c.file c.limit fuel c.pos).records := by
  induction fuel generalizing c with
  | zero => exact .inl rfl
  | succ fuel ih =>
    rw [walkFuel, plainWalkFuel]
    by_cases hfit : c.reach < c.pos + recordLenField → ¬Oversized c.file c.pos c.limit c.window
    · obtain ⟨hanswer, hfollows⟩ := nextRecord_agrees h hfit
      rw [← hanswer]
      cases hnext : c.nextRecord with
      | error e => exact .inl rfl
      | ok found =>
        cases found with
        | none => exact .inl rfl
        | some found =>
          obtain ⟨r, c'⟩ := found
          have hc := hfollows r c' hnext
          have hrest := ih hc.windowed
          rw [hc.file, hc.limit] at hrest
          dsimp only [Except.map, place, Option.map]
          rcases hrest with heq | ⟨herror, hprefix⟩
          · exact .inl (by rw [heq])
          · exact .inr ⟨herror, (List.prefix_cons_inj _).mpr hprefix⟩
    · obtain ⟨hshort, hover⟩ := Classical.not_imp.mp hfit
      rw [nextRecord_oversized h hshort (not_not.mp hover)]
      exact .inr ⟨nofun, List.nil_prefix⟩

theorem walkFuel_isPrefix (h : c.Windowed) :
    (walkFuel fuel c).records <+: (plainWalkFuel c.file c.limit fuel c.pos).records := by
  rcases walkFuel_cases h with heq | ⟨-, hprefix⟩
  · exact heq ▸ List.prefix_rfl
  · exact hprefix

/-- A record of the plain decoder ends behind its start and not behind the limit. -/
theorem plainNext_moves (h : plainNext file pos limit = .ok (some (r, pos'))) :
    decodeRecord (plainBytes file pos limit) pos = .ok (r, pos' - pos) ∧ pos < pos' ∧
      pos' ≤ limit := by
  unfold plainNext at h
  split at h
  · cases h
  split at h
  · rename_i hdecode
    cases h
    obtain ⟨hmin, -, hmax⟩ := decodeRecord_length hdecode
    have hlen : (plainBytes file pos limit).length ≤ limit - pos := List.length_take_le ..
    rw [recordLenField] at hmin
    rw [Nat.add_sub_cancel_left]
    exact ⟨hdecode, by omega, by omega⟩
  · cases h
  · cases h

theorem plainNext_none (h : plainNext file pos limit = .ok none) : limit ≤ pos := by
  unfold plainNext at h
  split at h
  · assumption
  · split at h <;> cases h

/-- The plain decoder ends without an error exactly if it ends at the limit. -/
theorem plainWalkFuel_end (hpos : pos ≤ limit) (hfuel : limit - pos < fuel) :
    (plainWalkFuel file limit fuel pos).error = none ↔
      (plainWalkFuel file limit fuel pos).stop = limit := by
  induction fuel generalizing pos with
  | zero => exact absurd hfuel (Nat.not_lt_zero _)
  | succ fuel ih =>
    rw [plainWalkFuel]
    cases hnext : plainNext file pos limit with
    | error e =>
      refine iff_of_false nofun fun hstop => ?_
      have hend : pos = limit := hstop
      rw [plainNext, if_pos (Nat.le_of_eq hend.symm)] at hnext
      cases hnext
    | ok found =>
      cases found with
      | none => exact iff_of_true rfl (Nat.le_antisymm hpos (plainNext_none hnext))
      | some found =>
        obtain ⟨-, hlow, hhigh⟩ := plainNext_moves hnext
        exact ih hhigh (by omega)

theorem plainWalkFuel_valid : ∀ x ∈ (plainWalkFuel file limit fuel pos).records, x.2.Valid := by
  induction fuel generalizing pos with
  | zero => exact fun x hx => absurd hx List.not_mem_nil
  | succ fuel ih =>
    intro x hx
    rw [plainWalkFuel] at hx
    split at hx
    · exact absurd hx List.not_mem_nil
    · exact absurd hx List.not_mem_nil
    · rename_i hnext
      rcases List.mem_cons.mp hx with rfl | hx
      · exact decodeRecord_valid (plainNext_moves hnext).1
      · exact ih x hx

/-- Whatever a file holds, the records read from it are valid. -/
theorem walk_valid (file : Bytes) (start limit window : Nat) :
    ∀ r ∈ (new file start limit window).walk.records.map Prod.snd, r.Valid := by
  intro r hr
  obtain ⟨x, hx, rfl⟩ := List.mem_map.mp hr
  exact plainWalkFuel_valid x ((walkFuel_isPrefix (.new file start limit window)).subset hx)

/-! ### A log of whole records -/

/-- The records of a log with the position of each. -/
def positioned : Nat → List Record → List (Nat × Record)
  | _, [] => []
  | pos, r :: rs => (pos, r) :: positioned (pos + (encodeRecord r).length) rs

theorem map_snd_positioned (pos : Nat) (rs : List Record) :
    (positioned pos rs).map Prod.snd = rs := by
  induction rs generalizing pos with
  | nil => rfl
  | cons r rs ih => rw [positioned, List.map_cons, ih]

/-- What may stand behind the whole records of a log: nothing, or a torn record. -/
inductive Tail : Bytes → Prop where
  | clean : Tail []
  | torn {r : Record} {k : Nat} (hr : r.Valid) (h0 : 0 < k) (hk : k < (encodeRecord r).length) :
    Tail ((encodeRecord r).take k)

/-- How a walk over whole records and a tail ends. -/
def tailError (tail : Bytes) (pos : Nat) : Option RecordDecodeError :=
  if tail = [] then none else some (.truncated pos)

theorem plainBytes_add (file : Bytes) (pos n limit : Nat) :
    plainBytes file (pos + n) limit = (plainBytes file pos limit).drop n := by
  rw [plainBytes, plainBytes, List.drop_take, List.drop_drop, Nat.sub_add_eq]

theorem claimedLen_encode (hr : r.Valid) (rest : Bytes) :
    claimedLen (encodeRecord r ++ rest) = (encodeRecord r).length := by
  rw [claimedLen, ← checkBodyLen_eq (checkBodyLen_encode hr rest 0), length_encodeRecord]
  rfl

theorem plainNext_tail (window : Nat) (ht : Tail tail) (hb : plainBytes file pos limit = tail)
    (hend : pos + tail.length = limit) :
    plainNext file pos limit = (tailError tail pos).elim (.ok none) .error ∧
      ¬Oversized file pos limit window := by
  cases ht with
  | clean =>
    refine ⟨if_pos (Nat.le_of_eq hend.symm), fun hover => ?_⟩
    have hpeek := hover.2.1
    rw [hb] at hpeek
    cases hpeek
  | @torn r k hr h0 hk =>
    have hlen : ((encodeRecord r).take k).length = k := List.length_take_of_le (Nat.le_of_lt hk)
    have hne : (encodeRecord r).take k ≠ [] := by
      rw [← List.length_pos_iff, hlen]
      exact h0
    have hnext : plainNext file pos limit = .error (.truncated pos) := by
      rw [plainNext, if_neg (by omega), hb, decodeRecord_torn hr h0 hk]
    rw [tailError, if_neg hne]
    exact ⟨hnext, fun hover => hover.2.2 hnext⟩

/-- Over whole records and a tail, the plain decoder finds these records and stops at the tail; a
window that holds every record suffices. -/
theorem plainWalkFuel_encoded (window : Nat) (ht : Tail tail)
    (hb : plainBytes file pos limit = encodeAll rs ++ tail)
    (hend : pos + (encodeAll rs ++ tail).length = limit) (hr : ∀ r ∈ rs, r.Valid)
    (hfuel : rs.length < fuel) :
    plainWalkFuel file limit fuel pos = ⟨positioned pos rs, pos + (encodeAll rs).length,
        tailError tail (pos + (encodeAll rs).length)⟩ ∧
      ∀ reach, (∀ r ∈ rs, (encodeRecord r).length ≤ window) →
        windowSuffices file limit window fuel reach pos = true := by
  induction rs generalizing pos fuel with
  | nil =>
    obtain ⟨fuel, rfl⟩ := Nat.exists_eq_succ_of_ne_zero (Nat.ne_of_gt hfuel)
    obtain ⟨hnext, hfit⟩ := plainNext_tail window ht hb hend
    rw [plainWalkFuel, show pos + (encodeAll []).length = pos from rfl]
    simp only [windowSuffices, hnext, hfit, not_false_eq_true, implies_true, decide_true,
      Bool.true_and]
    cases tailError tail pos with
    | none => exact ⟨rfl, fun _ _ => rfl⟩
    | some e => exact ⟨rfl, fun _ _ => rfl⟩
  | cons r rs ih =>
    obtain ⟨fuel, rfl⟩ := Nat.exists_eq_succ_of_ne_zero (Nat.ne_of_gt (Nat.zero_lt_of_lt hfuel))
    have hvalid := hr r List.mem_cons_self
    rw [encodeAll_cons, List.append_assoc] at hb hend
    rw [List.length_append] at hend
    have hpositive := length_encodeRecord_pos r
    have hnext : plainNext file pos limit = .ok (some (r, pos + (encodeRecord r).length)) := by
      rw [plainNext, if_neg (by omega), hb, decodeRecord_encode hvalid]
    have hrest : plainBytes file (pos + (encodeRecord r).length) limit = encodeAll rs ++ tail := by
      rw [plainBytes_add, hb, List.drop_left]
    obtain ⟨hwalk, hsuffices⟩ := ih hrest (by omega)
      (fun r' hr' => hr r' (List.mem_cons_of_mem _ hr')) (Nat.lt_of_succ_lt_succ hfuel)
    constructor
    · rw [plainWalkFuel, hnext]
      dsimp only
      rw [hwalk, encodeAll_cons, List.length_append, Nat.add_assoc]
      rfl
    · intro reach hsmall
      rw [windowSuffices, hnext, Bool.and_eq_true, decide_eq_true_eq]
      refine ⟨fun _ hover => ?_, hsuffices _ fun r' hr' => hsmall r' (List.mem_cons_of_mem _ hr')⟩
      have hlong := hover.1
      rw [hb, claimedLen_encode hvalid] at hlong
      exact absurd (hsmall r List.mem_cons_self) (by omega)

/-- A cursor over whole records and a tail sees these records and stops at the tail. -/
theorem walk_encoded {rs : List Record} {file pre tail post : Bytes} (ht : Tail tail)
    (hfile : file = pre ++ ((encodeAll rs ++ tail) ++ post)) {limit window : Nat}
    (hlimit : limit = pre.length + (encodeAll rs ++ tail).length)
    (hr : ∀ r ∈ rs, r.Valid ∧ (encodeRecord r).length ≤ max window 4096) :
    (new file pre.length limit window).walk =
      ⟨positioned pre.length rs, pre.length + (encodeAll rs).length,
        tailError tail (pre.length + (encodeAll rs).length)⟩ := by
  have hb : plainBytes file pre.length limit = encodeAll rs ++ tail := by
    rw [plainBytes, hfile, List.drop_left, hlimit, Nat.add_sub_cancel_left, List.take_left]
  have hfuel : rs.length < limit - pre.length + 1 := by
    have := length_le_encodeAll rs
    rw [hlimit, List.length_append]
    omega
  obtain ⟨hwalk, hsuffices⟩ :=
    plainWalkFuel_encoded (max window 4096) ht hb hlimit.symm (fun r h => (hr r h).1) hfuel
  exact ((walkFuel_eq_iff (.new file pre.length limit window)).mpr
    (hsuffices _ fun r h => (hr r h).2)).trans hwalk

/-- Whatever the window, a walk over records sees nothing but these records, in order. -/
theorem walk_isPrefix (hr : ∀ r ∈ rs, r.Valid) (window : Nat) :
    ((new (encodeAll rs) 0 (encodeAll rs).length window).walk.records.map Prod.snd) <+: rs := by
  have hb : plainBytes (encodeAll rs) 0 (encodeAll rs).length = encodeAll rs ++ [] := by
    rw [plainBytes, List.append_nil]
    exact List.take_length
  have hprefix : (new (encodeAll rs) 0 (encodeAll rs).length window).walk.records <+:
      (plainWalkFuel (encodeAll rs) (encodeAll rs).length ((encodeAll rs).length + 1) 0).records :=
    walkFuel_isPrefix (.new (encodeAll rs) 0 (encodeAll rs).length window)
  rw [(plainWalkFuel_encoded window .clean hb (by simp) hr
    (Nat.lt_succ_of_le (length_le_encodeAll rs))).1] at hprefix
  have hrecords := hprefix.map Prod.snd
  rwa [map_snd_positioned] at hrecords

/-! ### Windows against plain decoding -/

/-- **Windowed reading is plain decoding.** For every file, range and window, a loop over the cursor
finds the records that the plain decoder finds, at the same positions, and ends as it does, without
an error exactly at the limit, if and only if of no record longer than the window less than the
length field has been read when the cursor comes to it. -/
theorem windowed_eq_plain (file : Bytes) (start limit window : Nat) :
    ((new file start limit window).walk = plainWalk file start limit ∧
      (start ≤ limit → ((new file start limit window).walk.error = none ↔
        (new file start limit window).walk.stop = limit))) ↔
      windowSuffices file limit (max window 4096) (limit - start + 1) start start = true := by
  have hiff : (new file start limit window).walk = plainWalk file start limit ↔ _ :=
    walkFuel_eq_iff (.new file start limit window)
  refine ⟨fun h => hiff.mp h.1, fun h => ?_⟩
  have hwalk := hiff.mpr h
  refine ⟨hwalk, fun hstart => ?_⟩
  rw [hwalk]
  exact plainWalkFuel_end hstart (by omega)

/-- Two records and a part of a third. -/
def tornLog : Bytes :=
  encodeRecord ⟨3, 5, none, [1]⟩ ++ (encodeRecord ⟨4, 6, some [2], [3]⟩ ++ [0, 0, 0, 200, 1])

/-- A loop through the smallest window. -/
example : (new tornLog 0 tornLog.length 0).walk.error = some (.truncated 67) := by decide +kernel

/-- A file of one record that is longer than the window. -/
theorem plainNext_oversized {r : Record} (hr : r.Valid) {window : Nat}
    (hlong : window < (encodeRecord r).length) :
    plainNext (encodeRecord r) 0 (encodeRecord r).length =
        .ok (some (r, (encodeRecord r).length)) ∧
      Oversized (encodeRecord r) 0 (encodeRecord r).length window := by
  have hplain : plainBytes (encodeRecord r) 0 (encodeRecord r).length = encodeRecord r ++ [] := by
    rw [plainBytes, List.append_nil]
    exact List.take_length
  have hnext : plainNext (encodeRecord r) 0 (encodeRecord r).length =
      .ok (some (r, (encodeRecord r).length)) := by
    rw [plainNext, if_neg (by omega), hplain, decodeRecord_encode hr]
    simp only [Nat.zero_add]
  refine ⟨hnext, ?_, ?_, fun heq => by cases hnext.symm.trans heq⟩
  · rwa [hplain, claimedLen_encode hr]
  · have hlen := length_encodeRecord r
    rw [hplain, claimedLen_encode hr, peekRecordLen, checkBodyLen_encode hr, if_neg, hlen]
    · rfl
    · rw [List.append_nil, recordLenField]
      omega

theorem bodyLen_keyless (offset : Nat) (timestampMs : Int64) (value : Bytes) :
    bodyLen ⟨offset, timestampMs, none, value⟩ = 28 + value.length := by
  simp only [bodyLen, headerLen, keyBytes, Option.getD_none, List.length_nil, valueLenField,
    crcLen]
  omega

def longRecord : Record := ⟨0, 0, none, List.replicate 4096 0⟩

theorem bodyLen_longRecord : bodyLen longRecord = 4124 := by
  rw [longRecord, bodyLen_keyless, List.length_replicate]

theorem longRecord_valid : longRecord.Valid where
  offset := Nat.zero_le _
  size := by
    rw [bodyLen_longRecord]
    decide

/-- A whole valid record is reported as cut short, although the plain decoder returns it. -/
theorem oversized_record_unread :
    plainNext (encodeRecord longRecord) 0 (encodeRecord longRecord).length =
        .ok (some (longRecord, (encodeRecord longRecord).length)) ∧
      (new (encodeRecord longRecord) 0 (encodeRecord longRecord).length 4096).nextRecord =
        .error (.truncated 0) := by
  have hlong : 4096 < (encodeRecord longRecord).length := by
    rw [length_encodeRecord, bodyLen_longRecord]
    decide
  obtain ⟨hnext, hover⟩ := plainNext_oversized longRecord_valid hlong
  exact ⟨hnext, nextRecord_oversized (.new ..) (Nat.zero_lt_succ _) hover⟩

end RecordCursor

end EventStream.Storage
