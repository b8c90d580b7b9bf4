import PhpLint.Proofs.Source.Cut

namespace PhpLint

open Source

-- The bytes of a text.
def bytesOf (source : String) : List UInt8 :=
  source.toByteArray.data.toList

-- The number of line feeds among the first bytes of a text.
def lineFeeds (source : String) (n : Nat) : Nat :=
  ((bytesOf source).take n).count 10

theorem bytesOf_ofList (cs : List Char) :
    bytesOf (String.ofList cs) = cs.flatMap String.utf8EncodeChar := by
  simp [bytesOf, List.utf8Encode]

theorem length_encode (cs : List Char) :
    (cs.flatMap String.utf8EncodeChar).length = byteLength cs := by
  induction cs with
  | nil => rfl
  | cons c cs ih => simp [byteLength, ih]

-- The byte of a line feed occurs in no other character: those of longer characters are above
-- those of short ones.
theorem notMem_encodeChar {c : Char} (hc : c ≠ '\n') : 10 ∉ String.utf8EncodeChar c := by
  have hval : c.val.toNat ≠ 10 := fun h => hc (Char.ext (UInt32.toNat_inj.mp h))
  have hbyte {n : Nat} (hne : n ≠ 10) (hlt : n < 256) : 10 ≠ UInt8.ofNat n := by
    intro h
    have hn := congrArg UInt8.toNat h
    rw [UInt8.toNat_ofNat', Nat.mod_eq_of_lt hlt] at hn
    exact hne hn.symm
  unfold String.utf8EncodeChar
  simp only
  split
  · simpa using hbyte hval (by omega)
  · split
    · simp only [List.mem_cons, List.not_mem_nil, or_false, not_or]
      exact ⟨hbyte (by omega) (by omega), hbyte (by omega) (by omega)⟩
    · split
      · simp only [List.mem_cons, List.not_mem_nil, or_false, not_or]
        exact ⟨hbyte (by omega) (by omega), hbyte (by omega) (by omega),
          hbyte (by omega) (by omega)⟩
      · simp only [List.mem_cons, List.not_mem_nil, or_false, not_or]
        exact ⟨hbyte (by omega) (by omega), hbyte (by omega) (by omega),
          hbyte (by omega) (by omega), hbyte (by omega) (by omega)⟩

theorem count_encodeChar (c : Char) :
    (String.utf8EncodeChar c).count 10 = [c].count '\n' := by
  by_cases hc : c = '\n'
  · subst hc
    rfl
  · rw [List.count_eq_zero_of_not_mem (notMem_encodeChar hc),
      List.count_eq_zero_of_not_mem (by simpa using Ne.symm hc)]

-- Before the last byte of a character there is no line feed in it.
theorem exists_encodeChar_eq (c : Char) :
    ∃ bytes last, String.utf8EncodeChar c = bytes ++ [last] ∧ bytes.count 10 = 0 := by
  have hne : String.utf8EncodeChar c ≠ [] := by simp
  refine ⟨_, _, (List.dropLast_concat_getLast hne).symm, ?_⟩
  by_cases hc : c = '\n'
  · subst hc
    rfl
  · exact List.count_eq_zero_of_not_mem fun h => notMem_encodeChar hc (List.dropLast_subset _ h)

theorem count_encode (cs : List Char) :
    (cs.flatMap String.utf8EncodeChar).count 10 = cs.count '\n' := by
  induction cs with
  | nil => rfl
  | cons c cs ih =>
      rw [List.flatMap_cons, List.count_append, count_encodeChar, ih, ← List.count_append]
      rfl

-- Among the bytes in front of a character.
theorem lineFeeds_ofList (before after : List Char) :
    lineFeeds (String.ofList (before ++ after)) (byteLength before) = before.count '\n' := by
  rw [lineFeeds, bytesOf_ofList, List.flatMap_append, List.take_left' (length_encode before),
    count_encode]

-- Among the bytes in front of the last one of a character.
theorem lineFeeds_pred_ofList (before after : List Char) (c : Char) :
    lineFeeds (String.ofList (before ++ c :: after)) (byteLength (before ++ [c]) - 1) =
      before.count '\n' := by
  obtain ⟨bytes, last, hbytes, hcount⟩ := exists_encodeChar_eq c
  have hlength : (before.flatMap String.utf8EncodeChar ++ bytes).length =
      byteLength (before ++ [c]) - 1 := by
    rw [← length_encode (before ++ [c])]
    simp [hbytes]
  rw [lineFeeds, bytesOf_ofList, List.flatMap_append, List.flatMap_cons, hbytes, List.append_assoc,
    ← List.append_assoc, List.take_left' hlength, List.count_append, count_encode, hcount,
    Nat.add_zero]

theorem lineFeeds_mono (source : String) {m n : Nat} (h : m ≤ n) :
    lineFeeds source m ≤ lineFeeds source n :=
  ((List.take_prefix_take_left h).sublist).count_le 10

-- A place in a source: it is not empty, it is between characters, and it is on the lines that
-- its first and its last byte are on.
structure Location.IsCoherent (source file : String) (l : Location) : Prop where
  file_eq : l.file = file
  proper : l.start < l.stop
  stop_le : l.stop ≤ source.utf8ByteSize
  start_valid : (String.Pos.Raw.mk l.start).IsValid source
  stop_valid : (String.Pos.Raw.mk l.stop).IsValid source
  firstLine_eq : l.firstLine = 1 + lineFeeds source l.start
  lastLine_eq : l.lastLine = 1 + lineFeeds source (l.stop - 1)

-- What covers two places starts with one of them and ends with one of them.
theorem Location.IsCoherent.cover {source file : String} {a b : Location}
    (ha : a.IsCoherent source file) (hb : b.IsCoherent source file) :
    (a.cover b).IsCoherent source file := by
  have hproper := ha.proper
  have hproper' := hb.proper
  rw [Location.cover, if_pos (ha.file_eq.trans hb.file_eq.symm)]
  refine ⟨ha.file_eq, by simp only; omega, Nat.max_le.mpr ⟨ha.stop_le, hb.stop_le⟩, ?_, ?_, ?_, ?_⟩
  · rcases Nat.le_total a.start b.start with h | h
    · simpa [Nat.min_eq_left h] using ha.start_valid
    · simpa [Nat.min_eq_right h] using hb.start_valid
  · rcases Nat.le_total a.stop b.stop with h | h
    · simpa [Nat.max_eq_right h] using hb.stop_valid
    · simpa [Nat.max_eq_left h] using ha.stop_valid
  · rw [ha.firstLine_eq, hb.firstLine_eq]
    rcases Nat.le_total a.start b.start with h | h
    · have hle := lineFeeds_mono source h
      simp only [Nat.min_eq_left h]
      omega
    · have hle := lineFeeds_mono source h
      simp only [Nat.min_eq_right h]
      omega
  · rw [ha.lastLine_eq, hb.lastLine_eq]
    rcases Nat.le_total a.stop b.stop with h | h
    · have hle := lineFeeds_mono source (Nat.sub_le_sub_right h 1)
      simp only [Nat.max_eq_right h]
      omega
    · have hle := lineFeeds_mono source (Nat.sub_le_sub_right h 1)
      simp only [Nat.max_eq_left h]
      omega

theorem Occupies.isValid {source before text after : String} {start stop : Nat}
    (h : Occupies source start stop before text after) :
    (String.Pos.Raw.mk start).IsValid source ∧ (String.Pos.Raw.mk stop).IsValid source := by
  constructor
  · refine String.Pos.Raw.isValid_iff_exists_append.mpr ⟨before, text ++ after, ?_, ?_⟩
    · rw [h.source_eq, String.append_assoc]
    · rw [h.start_eq]
      rfl
  · refine String.Pos.Raw.isValid_iff_exists_append.mpr ⟨before ++ text, after, h.source_eq, ?_⟩
    rw [h.stop_eq]
    rfl

theorem isCoherent_of_mem_lex {source file : String} {lexeme : Lexeme}
    (h : lexeme ∈ lex source file) : lexeme.location.IsCoherent source file := by
  have hproper := start_lt_stop_of_mem_lex h
  obtain ⟨pre, segment, post, hsegments, -, hlocation⟩ := isPlacedIn_of_mem_locate file h
  have hoccupies := occupies_of_segments hsegments
  obtain ⟨cs, c, htext⟩ : ∃ cs c, segment.text = cs ++ [c] :=
    ⟨_, _, (List.dropLast_concat_getLast (isCut_segments _ _ _ _ _ hsegments).text_ne_nil).symm⟩
  have hsource : source = String.ofList (textOf pre ++ cs ++ c :: textOf post) := by
    have hall := textOf_segments false source.toList
    rw [hsegments, textOf_append, textOf_cons, htext] at hall
    rw [List.append_assoc, List.append_cons cs, hall, String.ofList_toList]
  rw [hlocation, placeAfter, Nat.zero_add] at hproper ⊢
  refine ⟨rfl, hproper, ?_, hoccupies.isValid.1, hoccupies.isValid.2, ?_, ?_⟩
  · rw [hoccupies.stop_eq, hoccupies.source_eq]
    simp
  · have hfeeds := lineFeeds_ofList (textOf pre) (cs ++ c :: textOf post)
    rw [← List.append_assoc, ← hsource] at hfeeds
    rw [hfeeds]
  · have hfeeds := lineFeeds_pred_ofList (textOf pre ++ cs) (textOf post) c
    rw [← hsource, List.append_assoc, byteLength_append, ← htext, List.count_append] at hfeeds
    rw [hfeeds, htext, List.dropLast_concat, Nat.add_assoc]

end PhpLint
