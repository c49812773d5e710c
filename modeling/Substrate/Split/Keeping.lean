import Substrate.Split.Cutting

/-!
What is kept when a chunk is made to fit: every line with something on it, the long ones in
pieces.
-/

namespace Substrate.Split

open Lib.PyText List

variable {text : Text} {chunk piece : List Line} {out : List (List Line)}

theorem pieces_of_overlong (h : Overlong text) : pieces text =
      text.take (cutPlace text) :: [] :: pieces (lstrip (text.drop (cutPlace text))) := by
  conv_lhs => rw [pieces]
  rw [dif_pos h]

theorem pieces_of_not_overlong (h : ¬ Overlong text) : pieces text = [text] := by
  rw [pieces, dif_neg h]

theorem cutLongLine_texts (line : Line) :
    (cutLongLine line).map Line.numbered = (pieces line.text).map fun text => (text, line.page) := by
  unfold cutLongLine
  split
  · rw [List.map_map]
    rfl
  · next h =>
    rw [pieces_of_not_overlong h]
    rfl

def ink (text : Text) : Text := text.filter fun c => !isSpace c

theorem ink_append (text more : Text) : ink (text ++ more) = ink text ++ ink more :=
  filter_append _ _

theorem ink_lstrip (text : Text) : ink (lstrip text) = ink text := by
  induction text with
  | nil => rfl
  | cons c rest ih =>
    cases hspace : isSpace c with
    | true =>
      rw [lstrip_cons_of_space hspace, ih]
      simp [ink, hspace]
    | false => rw [lstrip_cons_of_not hspace]

theorem ink_pieces (text : Text) : ink (pieces text).flatten = ink text := by
  induction text using pieces.induct with
  | case1 text h ih =>
    rw [pieces_of_overlong h, flatten_cons, flatten_cons, nil_append, ink_append,
      ih, ink_lstrip, ← ink_append, take_append_drop]
  | case2 text h => simp [pieces_of_not_overlong h]

theorem visible_iff_ink : visible text = true ↔ ink text ≠ [] := by
  simp [visible, isBlank, ink]

theorem visible_piece (h : visible text = true) : ∃ piece ∈ pieces text, visible piece = true := by
  by_contra hnone
  have hall : ∀ piece ∈ pieces text, ink piece = [] := by
    intro piece hpiece
    by_contra hink
    exact hnone ⟨piece, hpiece, visible_iff_ink.mpr hink⟩
  apply visible_iff_ink.mp h
  rw [← ink_pieces, ink, filter_flatten, flatten_eq_nil_iff]
  intro piece hpiece
  obtain ⟨source, hsource, rfl⟩ := mem_map.mp hpiece
  exact hall source hsource

theorem unbroken_piece {piece : Text} (htext : Unbroken text) (h : piece ∈ pieces text) :
    Unbroken piece := by
  induction text using pieces.induct with
  | case1 text hlong ih =>
    rw [pieces_of_overlong hlong] at h
    rcases mem_cons.mp h with rfl | h
    · exact htext.of_subset (take_subset _ _)
    rcases mem_cons.mp h with rfl | h
    · exact Unbroken.nil
    · apply ih _ h
      apply htext.of_subset
      exact List.Subset.trans (dropWhile_suffix isSpace).subset (drop_subset _ _)
  | case2 text hlong =>
    rw [pieces_of_not_overlong hlong] at h
    rwa [mem_singleton.mp h]

theorem cutLongLine_sound {line found : Line} (hline : line.Sound) (h : found ∈ cutLongLine line) :
    found.Sound := by
  unfold cutLongLine at h
  split at h
  · obtain ⟨text, htext, rfl⟩ := mem_map.mp h
    exact Line.plain_sound (unbroken_piece hline.unbroken htext) _
  · rwa [mem_singleton.mp h]

theorem cutLongLines_sound (hchunk : ∀ line ∈ chunk, line.Sound) :
    ∀ line ∈ cutLongLines chunk, line.Sound := by
  intro line hline
  obtain ⟨source, hsource, hcut⟩ := mem_flatMap.mp hline
  exact cutLongLine_sound (hchunk source hsource) hcut

def shown (chunk : List Line) : List Line := chunk.filter fun line => visible line.text

theorem shown_append (chunk more : List Line) : shown (chunk ++ more) = shown chunk ++ shown more :=
  filter_append _ _

theorem shown_eq_nil (h : hasVisible chunk = false) : shown chunk = [] := by
  rw [shown, filter_eq_nil_iff]
  intro line hline hvisible
  rw [hasVisible, any_eq_false] at h
  exact h line hline hvisible

theorem shown_filter_visible (chunks : List (List Line)) :
    shown (chunks.filter hasVisible).flatten = shown chunks.flatten := by
  induction chunks with
  | nil => rfl
  | cons chunk chunks ih =>
    rw [filter_cons, flatten_cons, shown_append]
    split
    · rw [flatten_cons, shown_append, ih]
    · next hnot =>
      have hnil : shown chunk = [] := shown_eq_nil (by simpa using hnot)
      rw [hnil, ih, nil_append]

theorem paragraphsFrom_shown (current : List Line) (size : Nat) (fenced : Bool)
    (chunk : List Line) :
    shown (paragraphsFrom current size fenced chunk).flatten = shown (current ++ chunk) := by
  induction chunk generalizing current size fenced with
  | nil => simp [paragraphsFrom]
  | cons line rest ih =>
    unfold paragraphsFrom
    simp only
    generalize (if isFence line.text then !fenced else fenced) = inside
    split
    · next hboundary =>
      rw [flatten_cons, shown_append, ih, nil_append, shown_append]
      simp [shown, hboundary.2.1]
    · split
      · rw [flatten_cons, shown_append, ih, ← shown_append]
        rfl
      · rw [ih, append_assoc]
        rfl

theorem paragraphsFrom_subset {current : List Line} {size : Nat} {fenced : Bool}
    (h : piece ∈ paragraphsFrom current size fenced chunk) :
    ∀ line ∈ piece, line ∈ current ∨ line ∈ chunk := by
  induction chunk generalizing current size fenced with
  | nil =>
    intro line hline
    rw [mem_singleton.mp h] at hline
    exact .inl hline
  | cons first rest ih =>
    intro line hline
    unfold paragraphsFrom at h
    simp only at h
    generalize (if isFence first.text then !fenced else fenced) = inside at h
    split at h
    · rcases mem_cons.mp h with rfl | h
      · exact .inl hline
      · have := ih h line hline
        simp_all
    · split at h
      · rcases mem_cons.mp h with rfl | h
        · exact .inl hline
        · have := ih h line hline
          simp_all
      · have := ih h line hline
        rw [mem_append, mem_singleton, or_assoc] at this
        rwa [mem_cons]

theorem byParagraphs_shown (chunk : List Line) :
    shown (byParagraphs chunk).flatten = shown (cutLongLines chunk) := by
  rw [byParagraphs, shown_filter_visible, paragraphsFrom_shown, nil_append]

theorem byParagraphs_visible (h : piece ∈ byParagraphs chunk) : hasVisible piece = true :=
  (mem_filter.mp h).2

theorem byParagraphs_sound (hchunk : ∀ line ∈ chunk, line.Sound) (h : piece ∈ byParagraphs chunk) :
    ∀ line ∈ piece, line.Sound := by
  intro line hline
  rcases paragraphsFrom_subset (mem_of_mem_filter h) line hline with hnil | hmem
  · cases hnil
  · exact cutLongLines_sound hchunk line hmem

theorem bytes_append (text more : Text) : bytes (text ++ more) = bytes text + bytes more := by
  simp [bytes]

theorem bytes_le_of_mem_splitFrom {returned : Bool} {line found : Text}
    (h : found ∈ splitFrom returned line text) : bytes found ≤ bytes line + bytes text := by
  induction text generalizing returned line with
  | nil =>
    unfold splitFrom at h
    split at h
    · cases h
    · rw [mem_singleton.mp h]
      omega
  | cons c rest ih =>
    have hcons : bytes (c :: rest) = bytes [c] + bytes rest := bytes_append [c] rest
    unfold splitFrom at h
    split at h
    · have := ih h
      omega
    · split at h
      · rcases mem_cons.mp h with rfl | h
        · omega
        · have := ih h
          have hnil : bytes [] = 0 := rfl
          omega
      · have := ih h
        rw [bytes_append] at this
        omega

theorem splitlines_join (hchunk : ∀ line ∈ chunk, line.Sound) (p : Text → Bool)
    (hp : p [] = false) :
    (splitlines (join chunk)).filter p = (chunk.map Line.text).filter p := by
  apply splitlines_stripFeeds p hp
  intro text htext
  obtain ⟨line, hline, rfl⟩ := mem_map.mp htext
  exact (hchunk line hline).unbroken

theorem not_overlong_of_fits (hchunk : ∀ line ∈ chunk, line.Sound)
    (hfits : tokens (join chunk) ≤ hardMaxTokens) : ∀ line ∈ chunk, ¬ Overlong line.text := by
  intro line hline hlong
  have hmem : line.text ∈ splitlines (join chunk) := by
    have hfound : line.text ∈ (chunk.map Line.text).filter (· != []) := by
      rw [mem_filter]
      refine ⟨mem_map_of_mem hline, ?_⟩
      simpa using ne_nil_of_overlong hlong
    rw [← splitlines_join hchunk (· != []) (by simp)] at hfound
    exact mem_of_mem_filter hfound
  have hle := bytes_le_of_mem_splitFrom hmem
  have hnil : bytes [] = 0 := rfl
  unfold Overlong at hlong
  unfold tokens at hfits
  omega

theorem cutLongLines_of_fits (hchunk : ∀ line ∈ chunk, line.Sound)
    (hfits : tokens (join chunk) ≤ hardMaxTokens) : cutLongLines chunk = chunk := by
  have hshort := not_overlong_of_fits hchunk hfits
  unfold cutLongLines
  clear hchunk hfits
  induction chunk with
  | nil => rfl
  | cons line rest ih =>
    have hline : ¬ Overlong line.text := hshort line mem_cons_self
    rw [flatMap_cons, ih fun l hl => hshort l (mem_cons_of_mem _ hl), cutLongLine, if_neg hline]
    rfl

/-- Chunks made of a chunk: its lines but for some blank ones and markers, the long ones in
pieces. -/
structure Fitted (chunk : List Line) (out : List (List Line)) : Prop where
  kept : ∃ kept, Carries chunk kept ∧ shown out.flatten = shown (cutLongLines kept)
  visible : ∀ piece ∈ out, hasVisible piece = true
  sound : (∀ line ∈ chunk, line.Sound) → ∀ piece ∈ out, ∀ line ∈ piece, line.Sound

theorem Fitted.nil : Fitted [] [] := by
  refine ⟨⟨[], Carries.refl [], rfl⟩, ?_, ?_⟩
  · intro piece hpiece
    cases hpiece
  · intro _ piece hpiece
    cases hpiece

theorem Fitted.append {more : List Line} {others : List (List Line)} (hout : Fitted chunk out)
    (hothers : Fitted more others) : Fitted (chunk ++ more) (out ++ others) := by
  obtain ⟨kept, hkept, hshown⟩ := hout.kept
  obtain ⟨left, hleft, hrest⟩ := hothers.kept
  refine ⟨⟨kept ++ left, hkept.append hleft, ?_⟩, ?_, ?_⟩
  · rw [flatten_append, shown_append, hshown, hrest, ← shown_append, cutLongLines,
      cutLongLines, cutLongLines, flatMap_append]
  · intro piece hpiece
    rcases mem_append.mp hpiece with h | h
    · exact hout.visible piece h
    · exact hothers.visible piece h
  · intro hsound piece hpiece
    rcases mem_append.mp hpiece with h | h
    · exact hout.sound (fun l hl => hsound l (mem_append_left _ hl)) piece h
    · exact hothers.sound (fun l hl => hsound l (mem_append_right _ hl)) piece h

theorem Fitted.of_carries {after : List Line} (hcarries : Carries chunk after)
    (hout : Fitted after out) : Fitted chunk out := by
  obtain ⟨kept, hkept, hshown⟩ := hout.kept
  refine ⟨⟨kept, hcarries.trans hkept, hshown⟩, hout.visible, ?_⟩
  intro hsound
  exact hout.sound fun line hline => hsound line (hcarries.sub.subset hline)

theorem Fitted.flatMap {cut : List (List Line)} {f : List Line → List (List Line)}
    (hf : ∀ piece ∈ cut, Fitted piece (f piece)) : Fitted cut.flatten (cut.flatMap f) := by
  induction cut with
  | nil => exact Fitted.nil
  | cons piece rest ih =>
    rw [flatten_cons, flatMap_cons]
    exact (hf piece mem_cons_self).append (ih fun p hp => hf p (mem_cons_of_mem _ hp))

theorem fit_eq (chunk : List Line) (level : Nat) : fit chunk level =
      if tokens (join chunk) ≤ hardMaxTokens then [chunk]
      else
        match deeperCut chunk level with
        | some (deeper, cut) => cut.flatMap fun piece => fit piece deeper
        | none =>
          if 1 < (pages chunk).length ∧ 1 < (cutByPages chunk).length then
            (cutByPages chunk).flatMap fun piece => fit piece level
          else byParagraphs chunk := by
  rw [fit]
  split
  · rfl
  · split
    · next h => rw [h]
    · next h =>
      rw [h]
      simp only
      split
      · rw [flatMap_subtype (g := fun piece => fit piece level) fun _ _ => rfl, unattach_attach]
      · rfl

theorem fit_fitted (chunk : List Line) (level : Nat) (hsound : ∀ line ∈ chunk, line.Sound)
    (hvisible : hasVisible chunk = true) : Fitted chunk (fit chunk level) := by
  induction chunk, level using fit.induct with
  | case1 chunk level hfits =>
    rw [fit_eq, if_pos hfits]
    refine ⟨⟨chunk, Carries.refl chunk, ?_⟩, ?_, ?_⟩
    · rw [cutLongLines_of_fits hsound hfits, flatten_singleton]
    · intro piece hpiece
      rw [mem_singleton.mp hpiece]
      exact hvisible
    · intro _ piece hpiece
      rw [mem_singleton.mp hpiece]
      exact hsound
  | case2 chunk level hlarge deeper cut hdeeper ih =>
    rw [fit_eq, if_neg hlarge, hdeeper]
    obtain ⟨-, -, hcut, -⟩ := deeperCut_eq hdeeper
    have hcarries : Carries chunk cut.flatten := hcut ▸ cutAtLevel_carries chunk deeper
    apply Fitted.of_carries hcarries
    apply Fitted.flatMap
    intro piece hpiece
    apply ih piece
    · intro line hline
      apply hsound line
      exact hcarries.sub.subset (mem_flatten_of_mem hpiece hline)
    · rw [hcut] at hpiece
      exact cutAtLevel_visible hpiece
  | case3 chunk level hlarge hdeeper hpages ih =>
    rw [fit_eq, if_neg hlarge, hdeeper]
    simp only [hpages, and_self, if_true]
    have hcarries := cutByPages_carries chunk
    apply Fitted.of_carries hcarries
    apply Fitted.flatMap
    intro piece hpiece
    apply ih ⟨piece, hpiece⟩
    · intro line hline
      apply hsound line
      exact hcarries.sub.subset (mem_flatten_of_mem hpiece hline)
    · exact cutByPages_visible hpiece
  | case4 chunk level hlarge hdeeper hpages =>
    rw [fit_eq, if_neg hlarge, hdeeper]
    simp only [hpages, if_false]
    exact ⟨⟨chunk, Carries.refl chunk, byParagraphs_shown chunk⟩,
      fun _ => byParagraphs_visible, fun hlines _ => byParagraphs_sound hlines⟩

theorem shown_ne_nil (h : hasVisible chunk = true) : shown (cutLongLines chunk) ≠ [] := by
  obtain ⟨line, hline, hvisible⟩ := any_eq_true.mp h
  obtain ⟨piece, hpiece, hshown⟩ := visible_piece hvisible
  have hmem : (piece, line.page) ∈ (cutLongLine line).map Line.numbered := by
    rw [cutLongLine_texts]
    exact mem_map.mpr ⟨piece, hpiece, rfl⟩
  obtain ⟨found, hfound, heq⟩ := mem_map.mp hmem
  have htext : found.text = piece := congrArg Prod.fst heq
  apply ne_nil_of_mem
  refine mem_filter.mpr ⟨mem_flatMap.mpr ⟨line, hline, hfound⟩, ?_⟩
  rw [htext]
  exact hshown

theorem fit_ne_nil (chunk : List Line) (level : Nat) (hvisible : hasVisible chunk = true) :
    fit chunk level ≠ [] := by
  induction chunk, level using fit.induct with
  | case1 chunk level hfits =>
    rw [fit_eq, if_pos hfits]
    exact cons_ne_nil _ _
  | case2 chunk level hlarge deeper cut hdeeper ih =>
    rw [fit_eq, if_neg hlarge, hdeeper]
    obtain ⟨-, -, hcut, hmany⟩ := deeperCut_eq hdeeper
    obtain ⟨piece, hpiece⟩ := exists_mem_of_length_pos (Nat.zero_lt_of_lt hmany)
    have hfirst := ih piece (cutAtLevel_visible (hcut ▸ hpiece))
    intro hnil
    exact hfirst (flatMap_eq_nil_iff.mp hnil piece hpiece)
  | case3 chunk level hlarge hdeeper hpages ih =>
    rw [fit_eq, if_neg hlarge, hdeeper]
    simp only [hpages, and_self, if_true]
    obtain ⟨piece, hpiece⟩ := exists_mem_of_length_pos (Nat.zero_lt_of_lt hpages.2)
    have hfirst := ih ⟨piece, hpiece⟩ (cutByPages_visible hpiece)
    intro hnil
    exact hfirst (flatMap_eq_nil_iff.mp hnil piece hpiece)
  | case4 chunk level hlarge hdeeper hpages =>
    rw [fit_eq, if_neg hlarge, hdeeper]
    simp only [hpages, if_false]
    intro hnil
    apply shown_ne_nil hvisible
    rw [← byParagraphs_shown, hnil]
    rfl

end Substrate.Split
