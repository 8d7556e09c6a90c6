import WorkflowCompiler.Proofs.Placeholder.Tidy

/-!
# Placeholders where bytes spell them

A text is read from the left, and a slot is taken wherever one starts. Nothing is missed that way:
of a slot only the first two characters are opening braces, so no slot starts inside of another one,
and each is read where it stands, whatever stands around it (`pieces_append_slot`).

Placeholders are listed with the bytes they take up in UTF-8. The bytes of a text that spell some
other text start and end at characters (`extract_eq_iff_exists_append`), so a text holds
a placeholder for just those of its bytes that spell one (`scan_spells`).
-/

namespace WorkflowCompiler

/-! ## Slots do not overlap -/

/-- No slot starts inside of a slot, even if it ends behind it. -/
theorem not_opening_of_slot {body left right : List Char} (hbody : body.all isBraceFree = true)
    (hsplit : (Piece.slot body).chars = left ++ right) (hleft : left ≠ []) (hright : right ≠ [])
    (rest tail : List Char) : right ++ rest ≠ '\x7b' :: '\x7b' :: tail := by
  have hfree : ∀ c ∈ body ++ ['\x7d', '\x7d'], c ≠ '\x7b' := by
    intro c hc hbrace
    subst hbrace
    rcases List.mem_append.1 hc with hc | hc
    · exact absurd (List.all_eq_true.1 hbody _ hc) (by decide)
    · exact absurd hc (by decide)
  intro h
  rcases left with _ | ⟨first, _ | ⟨second, left⟩⟩
  · exact hleft rfl
  · -- the right part starts with the second brace of the slot
    have hsecond : '\x7b' :: (body ++ ['\x7d', '\x7d']) = right := (List.cons.inj hsplit).2
    rw [← hsecond] at h
    have hthird : (body ++ ['\x7d', '\x7d']) ++ rest = '\x7b' :: tail := (List.cons.inj h).2
    obtain ⟨c, cs, hcs⟩ := List.exists_cons_of_ne_nil
      (List.append_ne_nil_of_right_ne_nil body (List.cons_ne_nil '\x7d' ['\x7d']))
    rw [hcs, List.cons_append] at hthird
    refine hfree c ?_ (List.cons.inj hthird).1
    rw [hcs]
    exact List.mem_cons_self
  · -- the right part is one of the body and the closing braces
    obtain ⟨-, hsecond⟩ := List.cons.inj hsplit
    have hrest : body ++ ['\x7d', '\x7d'] = left ++ right := (List.cons.inj hsecond).2
    obtain ⟨c, cs, rfl⟩ := List.exists_cons_of_ne_nil hright
    refine hfree c ?_ (List.cons.inj h).1
    rw [hrest]
    exact List.mem_append_right _ List.mem_cons_self

/-- A slot behind a text does not make one start in the text. -/
theorem slotAt?_append_slot {cs : List Char}
    (hne : cs ≠ []) (hnone : slotAt? cs = none) (body after : List Char) :
    slotAt? (cs ++ ((Piece.slot body).chars ++ after)) = none := by
  have hwhole : ∀ {other rest}, other.all isBraceFree = true →
      cs ≠ (Piece.slot other).chars ++ rest := by
    intro other rest hother heq
    rw [heq, slotAt?_slot hother] at hnone
    cases hnone
  rcases hslot : slotAt? (cs ++ ((Piece.slot body).chars ++ after)) with _ | ⟨other, rest⟩
  · rfl
  · exfalso
    obtain ⟨heq, hother⟩ := eq_of_slotAt?_eq_some hslot
    rcases List.append_eq_append_iff.1 heq with ⟨right, hsplit, hright⟩ | ⟨right, hsplit, -⟩
    · by_cases hnil : right = []
      · rw [hnil, List.append_nil] at hsplit
        have heq : cs = (Piece.slot other).chars ++ [] := by rw [List.append_nil, hsplit]
        exact hwhole hother heq
      · exact not_opening_of_slot hother hsplit hne hnil rest _ hright.symm
    · exact hwhole hother hsplit

/-- A slot is read where it stands. -/
theorem pieces_append_slot {body : List Char} (hbody : body.all isBraceFree = true)
    (before after : List Char) :
    pieces (before ++ ((Piece.slot body).chars ++ after)) =
      pieces before ++ .slot body :: pieces after := by
  fun_induction pieces before with
  | case1 => exact pieces_of_slotAt?_eq_some (slotAt?_slot hbody after)
  | case2 c cs other rest hslot ih =>
    obtain ⟨heq, hother⟩ := eq_of_slotAt?_eq_some hslot
    rw [heq, List.append_assoc, pieces_of_slotAt?_eq_some (slotAt?_slot hother _), ih]
    rfl
  | case3 c cs hslot ih =>
    have hnone := slotAt?_append_slot (List.cons_ne_nil c cs) hslot body after
    rw [List.cons_append] at hnone ⊢
    rw [pieces_of_slotAt?_eq_none hnone, ih]
    rfl

/-! ## Where placeholders stand -/

section Placing

variable {p : Placeholder} {offset : Nat} {piece : Piece} {ps : List Piece}

theorem byteLength_eq (cs : List Char) : byteLength cs = (String.ofList cs).utf8ByteSize := by
  induction cs with
  | nil => rfl
  | cons c cs ih =>
    rw [byteLength, ih, ← List.singleton_append, String.ofList_append, String.utf8ByteSize_append]
    simp

theorem mem_placeholdersFrom_cons :
    p ∈ placeholdersFrom offset (piece :: ps) ↔
      (piece.path? = some p.path ∧ p.start = offset ∧
        p.stop = offset + byteLength piece.chars) ∨
      p ∈ placeholdersFrom (offset + byteLength piece.chars) ps := by
  obtain ⟨start, stop, path⟩ := p
  rw [placeholdersFrom]
  rcases piece.path? with _ | other
  · simp
  · simp only [List.mem_cons, Placeholder.mk.injEq, Option.some.injEq]
    refine or_congr_left ⟨?_, ?_⟩
    · rintro ⟨hstart, hstop, hpath⟩
      exact ⟨hpath.symm, hstart, hstop⟩
    · rintro ⟨hpath, hstart, hstop⟩
      exact ⟨hstart, hstop, hpath.symm⟩

/-- A placeholder takes up the bytes of its piece, behind those of the pieces before it. -/
theorem mem_placeholdersFrom_iff :
    p ∈ placeholdersFrom offset ps ↔
      ∃ before piece after, ps = before ++ piece :: after ∧ piece.path? = some p.path ∧
        p.start = offset + byteLength (before.flatMap Piece.chars) ∧
        p.stop = p.start + byteLength piece.chars := by
  induction ps generalizing offset with
  | nil => simp [placeholdersFrom]
  | cons piece ps ih =>
    rw [mem_placeholdersFrom_cons, ih]
    constructor
    · rintro (⟨hpath, hstart, hstop⟩ | ⟨before, other, after, rfl, hpath, hstart, hstop⟩)
      · exact ⟨[], piece, ps, rfl, hpath, hstart, hstart ▸ hstop⟩
      · refine ⟨piece :: before, other, after, rfl, hpath, ?_, hstop⟩
        rw [hstart, List.flatMap_cons, byteLength_eq (_ ++ _), String.ofList_append,
          String.utf8ByteSize_append, ← byteLength_eq, ← byteLength_eq, Nat.add_assoc]
    · rintro ⟨_ | ⟨first, before⟩, other, after, heq, hpath, hstart, hstop⟩
      · obtain ⟨rfl, rfl⟩ := List.cons.inj heq
        have hfirst : p.start = offset := hstart
        exact .inl ⟨hpath, hfirst, hfirst ▸ hstop⟩
      · obtain ⟨rfl, rfl⟩ := List.cons.inj heq
        refine .inr ⟨before, other, after, rfl, hpath, ?_, hstop⟩
        rw [hstart, List.flatMap_cons, byteLength_eq (_ ++ _), String.ofList_append,
          String.utf8ByteSize_append, ← byteLength_eq, ← byteLength_eq, Nat.add_assoc]

/-- A placeholder stands behind those before it. -/
theorem pairwise_placeholdersFrom (offset : Nat) (ps : List Piece) :
    (placeholdersFrom offset ps).Pairwise fun p q => p.stop ≤ q.start := by
  induction ps generalizing offset with
  | nil => exact List.Pairwise.nil
  | cons piece ps ih =>
    rw [placeholdersFrom]
    rcases piece.path? with _ | path
    · exact ih _
    · refine List.pairwise_cons.2 ⟨fun q hq => ?_, ih _⟩
      obtain ⟨before, _, _, _, _, hstart, _⟩ := mem_placeholdersFrom_iff.1 hq
      exact hstart ▸ Nat.le_add_right _ _

end Placing

/-! ## Bytes that spell a text -/

section Bytes

variable {text word : String} {start stop : Nat}

theorem utf8ByteSize_pos (h : word ≠ "") : 0 < word.utf8ByteSize :=
  Nat.pos_of_ne_zero (mt String.utf8ByteSize_eq_zero_iff.1 h)

/-- Bytes that spell a text are as many as it has. -/
theorem min_eq_add_of_extract (hword : word ≠ "")
    (h : text.toByteArray.extract start stop = word.toByteArray) :
    min stop text.utf8ByteSize = start + word.utf8ByteSize := by
  have hpos := utf8ByteSize_pos hword
  have hsize : min stop text.utf8ByteSize - start = word.utf8ByteSize := by
    rw [← String.size_toByteArray, ← ByteArray.size_extract, h, String.size_toByteArray]
  omega

/-- Bytes that spell a text start at a character. -/
theorem isValid_of_extract (hword : word ≠ "")
    (h : text.toByteArray.extract start stop = word.toByteArray) :
    String.Pos.Raw.IsValid text ⟨start⟩ := by
  have hpos := utf8ByteSize_pos hword
  have hfirst : (word.getUTF8Byte 0 hpos).IsUTF8FirstByte := by
    rcases String.Pos.Raw.isValid_iff_isUTF8FirstByte.1
      (String.Pos.Raw.isValid_zero (s := word)) with hend | ⟨_, hfirst⟩
    · exact absurd (congrArg String.Pos.Raw.byteIdx hend) (Nat.ne_of_lt hpos)
    · exact hfirst
  have hlt : (⟨start⟩ : String.Pos.Raw) < text.rawEndPos := by
    have hmin := min_eq_add_of_extract hword h
    show start < text.utf8ByteSize
    omega
  have hbyte : text.getUTF8Byte ⟨start⟩ hlt = word.getUTF8Byte 0 hpos := by
    simp only [String.getUTF8Byte, ← h, ByteArray.getElem_extract]
    rfl
  exact String.Pos.Raw.isValid_iff_isUTF8FirstByte.2 (.inr ⟨hlt, hbyte ▸ hfirst⟩)

/-- The bytes behind a first part are those of the rest. -/
theorem extract_append_eq (before rest : String) (size : Nat) :
    (before ++ rest).toByteArray.extract before.utf8ByteSize (before.utf8ByteSize + size) =
      rest.toByteArray.extract 0 size := by
  rw [String.toByteArray_append, ← String.size_toByteArray]
  exact ByteArray.extract_append_size_add (i := 0)

/-- A text whose first bytes spell another one starts with it. -/
theorem exists_append_of_extract_zero (hsize : word.utf8ByteSize ≤ text.utf8ByteSize)
    (h : text.toByteArray.extract 0 word.utf8ByteSize = word.toByteArray) :
    ∃ after, text = word ++ after := by
  have hvalid : String.Pos.Raw.IsValid text ⟨word.utf8ByteSize⟩ :=
    String.Pos.Raw.isValid_iff_isValidUTF8_extract_zero.2 ⟨hsize, h ▸ word.isValidUTF8⟩
  obtain ⟨spelt, after, rfl, hspelt⟩ := String.Pos.Raw.isValid_iff_exists_append.1 hvalid
  have hword : spelt = word := by
    rw [← String.toByteArray_inj, ← h, String.toByteArray_append, ByteArray.extract_append_eq_left]
    exact congrArg String.Pos.Raw.byteIdx hspelt
  exact ⟨after, by rw [hword]⟩

/-- The bytes that spell a text stand between two parts of the text around them. -/
theorem extract_eq_iff_exists_append (hword : word ≠ "") :
    (stop ≤ text.utf8ByteSize ∧ text.toByteArray.extract start stop = word.toByteArray) ↔
      ∃ before after, text = before ++ (word ++ after) ∧ start = before.utf8ByteSize ∧
        stop = start + word.utf8ByteSize := by
  constructor
  · rintro ⟨hle, h⟩
    have hstop := min_eq_add_of_extract hword h
    rw [Nat.min_eq_left hle] at hstop
    obtain ⟨before, rest, rfl, hbefore⟩ :=
      String.Pos.Raw.isValid_iff_exists_append.1 (isValid_of_extract hword h)
    have hstart : start = before.utf8ByteSize := congrArg String.Pos.Raw.byteIdx hbefore
    subst hstop hstart
    rw [extract_append_eq] at h
    rw [String.utf8ByteSize_append] at hle
    obtain ⟨after, rfl⟩ := exists_append_of_extract_zero (Nat.le_of_add_le_add_left hle) h
    exact ⟨before, after, rfl, rfl, rfl⟩
  · rintro ⟨before, after, rfl, rfl, rfl⟩
    refine ⟨by simp only [String.utf8ByteSize_append]; omega, ?_⟩
    rw [extract_append_eq, String.toByteArray_append]
    exact ByteArray.extract_append_eq_left String.size_toByteArray.symm

end Bytes

/-! ## What is listed -/

/-- The bytes of a text from `start` up to `stop` are two opening braces, a body without braces and
two closing braces, and the body is the path with blanks around it. The path is not empty. -/
def SpellsPlaceholder (text : String) (start stop : Nat) (path : String) : Prop :=
  ∃ body : String, (∀ c ∈ body.toList, c ≠ '\x7b' ∧ c ≠ '\x7d') ∧ stop ≤ text.utf8ByteSize ∧
    text.toByteArray.extract start stop = ("\x7b\x7b" ++ body ++ "\x7d\x7d").toByteArray ∧
    path = Text.trim body ∧ path ≠ ""

theorem path?_slot_eq_some_iff {body : List Char} {path : String} :
    (Piece.slot body).path? = some path ↔ path = Text.trim (String.ofList body) ∧ path ≠ "" := by
  rw [Piece.path?, Text.trim, String.toList_ofList]
  rcases Text.trimChars body with _ | ⟨c, cs⟩
  · simp
  · simp only [Option.some.injEq]
    constructor
    · rintro rfl
      exact ⟨rfl, by simp⟩
    · exact fun h => h.1.symm

theorem ofList_chars_slot (body : List Char) :
    String.ofList (Piece.slot body).chars = "\x7b\x7b" ++ String.ofList body ++ "\x7d\x7d" := by
  rw [← String.toList_inj]
  simp [Piece.chars]

/-- A placeholder is listed wherever its slot stands between two parts of the text. -/
theorem mem_scan_iff_exists_append {text : String} {p : Placeholder} :
    p ∈ scan text ↔ ∃ body : String, (∀ c ∈ body.toList, c ≠ '\x7b' ∧ c ≠ '\x7d') ∧
      (p.path = Text.trim body ∧ p.path ≠ "") ∧
      ∃ before after, text = before ++ ("\x7b\x7b" ++ body ++ "\x7d\x7d" ++ after) ∧
        p.start = before.utf8ByteSize ∧
        p.stop = p.start + ("\x7b\x7b" ++ body ++ "\x7d\x7d").utf8ByteSize := by
  rw [scan, mem_placeholdersFrom_iff]
  constructor
  · rintro ⟨before, piece, after, hpieces, hpath, hstart, hstop⟩
    obtain _ | body := piece
    · cases hpath
    · have hmem : Piece.slot body ∈ pieces text.toList := by
        rw [hpieces]
        exact List.mem_append_right _ List.mem_cons_self
      have hproper : (Piece.slot body).Proper := proper_of_mem_pieces hmem
      refine ⟨String.ofList body, fun c hc => ?_, path?_slot_eq_some_iff.1 hpath,
        String.ofList (before.flatMap Piece.chars), String.ofList (after.flatMap Piece.chars),
        ?_, ?_, ?_⟩
      · rw [String.toList_ofList] at hc
        simpa [isBraceFree] using List.all_eq_true.1 hproper c hc
      · rw [← ofList_chars_slot, ← String.ofList_append, ← String.ofList_append,
          ← List.flatMap_cons, ← List.flatMap_append, ← hpieces, pieces_chars, String.ofList_toList]
      · rw [hstart, Nat.zero_add, byteLength_eq]
      · rw [← ofList_chars_slot, hstop, byteLength_eq (Piece.slot body).chars]
  · rintro ⟨body, hfree, hpath, before, after, rfl, hstart, hstop⟩
    have hslot := ofList_chars_slot body.toList
    rw [String.ofList_toList] at hslot
    have hbody : body.toList.all isBraceFree = true :=
      List.all_eq_true.2 fun c hc => by simpa [isBraceFree] using hfree c hc
    refine ⟨pieces before.toList, .slot body.toList, pieces after.toList, ?_, ?_, ?_, ?_⟩
    · rw [← hslot, String.toList_append, String.toList_append, String.toList_ofList,
        pieces_append_slot hbody]
    · rw [path?_slot_eq_some_iff, String.ofList_toList]
      exact hpath
    · rw [pieces_chars, hstart, Nat.zero_add, byteLength_eq, String.ofList_toList]
    · rw [hstop, ← hslot, byteLength_eq (Piece.slot body.toList).chars]

theorem slot_ne_empty (body : String) : "\x7b\x7b" ++ body ++ "\x7d\x7d" ≠ "" := by
  rw [Ne, ← String.utf8ByteSize_eq_zero_iff, String.utf8ByteSize_append, String.utf8ByteSize_append]
  exact Nat.ne_of_gt (Nat.add_pos_right _ (by decide))

/-- A placeholder is listed for the bytes that spell one, whatever stands around them. -/
theorem mem_scan_iff {text : String} {p : Placeholder} :
    p ∈ scan text ↔ SpellsPlaceholder text p.start p.stop p.path := by
  simp only [mem_scan_iff_exists_append, ← extract_eq_iff_exists_append (slot_ne_empty _),
    SpellsPlaceholder]
  exact exists_congr fun body => and_congr_right fun _ => and_comm.trans and_assoc

/-- The placeholders listed for a text are all the ranges of its bytes that spell one, from left to
right; no two of them share a byte, and each starts and ends at a character. -/
theorem scan_spells (text : String) :
    (∀ start stop path, ⟨start, stop, path⟩ ∈ scan text ↔ SpellsPlaceholder text start stop path) ∧
      (scan text).Pairwise (fun p q => p.stop ≤ q.start) ∧
      (∀ p ∈ scan text, p.start < p.stop ∧ String.Pos.Raw.IsValid text ⟨p.start⟩ ∧
        String.Pos.Raw.IsValid text ⟨p.stop⟩) ∧
      (hasPlaceholders text = true ↔ scan text ≠ []) := by
  refine ⟨fun _ _ _ => mem_scan_iff, pairwise_placeholdersFrom 0 _, fun p hp => ?_, ?_⟩
  · obtain ⟨body, -, -, before, after, rfl, hstart, hstop⟩ := mem_scan_iff_exists_append.1 hp
    have hpos := utf8ByteSize_pos (slot_ne_empty body)
    refine ⟨by omega, String.Pos.Raw.isValid_iff_exists_append.2 ⟨before, _, rfl, ?_⟩,
      String.Pos.Raw.isValid_iff_exists_append.2
        ⟨before ++ ("\x7b\x7b" ++ body ++ "\x7d\x7d"), after, String.append_assoc.symm, ?_⟩⟩
    · exact String.Pos.Raw.ext hstart
    · refine String.Pos.Raw.ext ?_
      rw [hstop, hstart]
      exact String.utf8ByteSize_append.symm
  · rw [hasPlaceholders_eq, Bool.not_eq_true', List.isEmpty_eq_false_iff]

example : scan "é\x7b\x7b\x7b a \x7d\x7d\x7d\x7b\x7b \x7d\x7d\x7b\x7bb" = [⟨3, 10, "a"⟩] := by
  decide +kernel

end WorkflowCompiler
