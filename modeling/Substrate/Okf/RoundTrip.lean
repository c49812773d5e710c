import Substrate.Okf.Concepts

/-!
A concept is read back as it was written, with its body, unless a key or a string of its
mapping is cut at a line break; and so are all the states of a file that is read, changed and
written again.
-/

namespace Substrate.Okf

open Lib PyText Frontmatter List

variable {py : Interpreter}

/-- A field that is absent, or a text that is not empty. -/
def OptionalText (v : Value) : Prop := v = .null ∨ ∃ text, text ≠ [] ∧ v = .str text

structure Concept.Regular (py : Interpreter) (c : Concept) : Prop where
  type_ne : c.type ≠ []
  type_trimmed : Trimmed c.type
  body_trimmed : Trimmed c.body
  status_valid : c.status ∈ validStatuses
  title : OptionalText c.title
  description : OptionalText c.description
  resource : OptionalText c.resource
  staleAfter : OptionalText c.staleAfter
  generated : c.generated = .null ∨ ∃ entries, entries ≠ [] ∧ c.generated = .map entries
  extra_unknown : ∀ entry ∈ c.extra, entry.1 ∉ knownKeys
  extra_nodup : (c.extra.map Prod.fst).Nodup
  proper : everyEntry (isProper py) c.front = true

theorem foldl_put {data more : Entries} (hkeys : ((data ++ more).map Prod.fst).Nodup) :
    more.foldl (fun data entry => put data entry.1 entry.2) data = data ++ more := by
  induction more generalizing data with
  | nil => simp
  | cons entry more ih =>
    have hfresh : entry.1 ∉ data.map Prod.fst := by
      rw [map_append, map_cons] at hkeys
      intro hmem
      exact disjoint_of_nodup_append hkeys hmem mem_cons_self
    rw [foldl_cons, put_fresh hfresh, ih (by simpa using hkeys)]
    simp

theorem known_nodup : knownKeys.Nodup := by decide

theorem known_uncut : ∀ key ∈ knownKeys, isCutKey key = false := by decide

theorem optional_keys (c : Concept) : c.optional.map Prod.fst = knownKeys.tail := rfl

theorem fields_keys (c : Concept) : (c.fields.map Prod.fst).Sublist knownKeys := by
  have hoptional : ((c.optional.filter fun entry => truthy entry.2).map Prod.fst).Sublist
      knownKeys.tail := by
    rw [← optional_keys c]
    exact (filter_sublist).map Prod.fst
  exact hoptional.cons_cons typeKey

namespace Concept.Regular

variable {c : Concept}

theorem keys_nodup (h : c.Regular py) : ((c.fields ++ c.extra).map Prod.fst).Nodup := by
  rw [map_append, nodup_append]
  refine ⟨List.Nodup.sublist (fields_keys c) known_nodup, h.extra_nodup, ?_⟩
  intro key hkey key' hkey' heq
  obtain ⟨entry, hentry, rfl⟩ := mem_map.mp hkey'
  rw [heq] at hkey
  exact h.extra_unknown entry hentry ((fields_keys c).mem hkey)

theorem front_eq (h : c.Regular py) : c.front = c.fields ++ c.extra := foldl_put h.keys_nodup

theorem front_nodup (h : c.Regular py) : (c.front.map Prod.fst).Nodup := by
  rw [h.front_eq]
  exact h.keys_nodup

end Concept.Regular

variable {key : Text} {data read : Entries} {v : Value} {c : Concept}

theorem get_of_head {loaded : Entries} : get loaded key =
      ((loaded.filter fun entry => entry.1 = key).head?.map Prod.snd).getD .null := by
  rw [get, List.head?_filter]

theorem reread_filter (keep : Text → Bool) (h : Reread data read) :
    Reread (data.filter fun entry => keep entry.1) (read.filter fun entry => keep entry.1) := by
  induction h with
  | nil => exact .nil
  | @lost key v data read hkey h ih =>
    cases hkeep : keep key with
    | true =>
      rw [filter_cons_of_pos (by simpa using hkeep)]
      exact .lost hkey ih
    | false =>
      rw [filter_cons_of_neg (by simpa using hkeep)]
      exact ih
  | @entry key v w data read hkey hvalue h ih =>
    cases hkeep : keep key with
    | true =>
      rw [filter_cons_of_pos (by simpa using hkeep), filter_cons_of_pos (by simpa using hkeep)]
      exact .entry hkey hvalue ih
    | false =>
      rw [filter_cons_of_neg (by simpa using hkeep), filter_cons_of_neg (by simpa using hkeep)]
      exact ih

theorem filter_key (hnodup : (data.map Prod.fst).Nodup) (hmem : (key, v) ∈ data) :
    data.filter (fun entry => entry.1 = key) = [(key, v)] := by
  induction data with
  | nil => cases hmem
  | cons entry data ih =>
    rw [map_cons, nodup_cons] at hnodup
    rcases mem_cons.mp hmem with rfl | hmem
    · rw [filter_cons_of_pos (by simp), filter_eq_nil_iff.mpr]
      intro other hother heq
      have hkey : other.1 = key := of_decide_eq_true heq
      have hother' : other.1 ∈ data.map Prod.fst := mem_map_of_mem hother
      exact hnodup.1 (hkey ▸ hother')
    · rw [filter_cons_of_neg, ih hnodup.2 hmem]
      intro heq
      have hkey : entry.1 = key := of_decide_eq_true heq
      have hmem' : key ∈ data.map Prod.fst := mem_map_of_mem hmem
      exact hnodup.1 (hkey ▸ hmem')

theorem get_reread (h : Reread data read) (hnodup : (data.map Prod.fst).Nodup)
    (hcut : isCutKey key = false) (hmem : (key, v) ∈ data) :
    ∃ w, get read key = w ∧ (w = v ↔ isCutValue v = false) := by
  have hfilter := reread_filter (fun k => k = key) h
  have hone : data.filter (fun entry => decide (entry.1 = key)) = [(key, v)] :=
    filter_key hnodup hmem
  rw [hone] at hfilter
  rw [get_of_head]
  generalize read.filter (fun entry => decide (entry.1 = key)) = found at hfilter
  cases hfilter with
  | lost hkey _ =>
    rw [hcut] at hkey
    cases hkey
  | entry hkey hvalue h =>
    cases h
    exact ⟨_, rfl, hvalue⟩

theorem get_absent (h : Reread data read) (hkey : key ∉ data.map Prod.fst) :
    get read key = .null := by
  have hnone : read.find? (fun entry => entry.1 = key) = none := by
    rw [List.find?_eq_none]
    intro entry hentry heq
    apply hkey
    apply h.keys_sublist.mem
    rw [← of_decide_eq_true heq]
    exact mem_map_of_mem hentry
  rw [get, hnone]
  rfl

theorem get_optional (hc : c.Regular py) (h : Reread c.front read) (hmem : (key, v) ∈ c.optional) :
    ∃ w, get read key = (if truthy v then w else .null) ∧ (w = v ↔ isCutValue v = false) := by
  have hknown : key ∈ knownKeys := by
    have hkeys : key ∈ c.optional.map Prod.fst := mem_map_of_mem hmem
    rw [optional_keys] at hkeys
    exact mem_of_mem_tail hkeys
  cases htruthy : truthy v with
  | true =>
    have hfront : (key, v) ∈ c.front := by
      rw [hc.front_eq]
      apply mem_append_left
      apply mem_cons_of_mem
      exact mem_filter.mpr ⟨hmem, htruthy⟩
    exact get_reread h hc.front_nodup (known_uncut key hknown) hfront
  | false =>
    have habsent : key ∉ c.front.map Prod.fst := by
      rw [hc.front_eq, map_append, mem_append]
      rintro (hfields | hextra)
      · obtain ⟨entry, hentry, heq⟩ := mem_map.mp hfields
        have hnodup : (c.optional.map Prod.fst).Nodup := by
          rw [optional_keys]
          decide
        rcases mem_cons.mp hentry with rfl | hentry
        · have hkeys : key ∈ c.optional.map Prod.fst := mem_map_of_mem hmem
          rw [optional_keys, ← heq] at hkeys
          have htype : typeKey ∉ knownKeys.tail := by decide
          exact absurd hkeys htype
        · obtain ⟨hentry, htrue⟩ := mem_filter.mp hentry
          have hsame : entry = (key, v) := by
            have hone := filter_key hnodup hmem
            have hin : entry ∈ c.optional.filter fun entry => entry.1 = key :=
              mem_filter.mpr ⟨hentry, by simpa using heq⟩
            rw [hone] at hin
            exact mem_singleton.mp hin
          rw [hsame, htruthy] at htrue
          cases htrue
      · obtain ⟨entry, hentry, heq⟩ := mem_map.mp hextra
        apply hc.extra_unknown entry hentry
        rwa [heq]
    refine ⟨v, get_absent h habsent, ?_⟩
    cases v <;> simp_all [isCutValue, isCutText, truthy]

theorem get_text (hc : c.Regular py) (h : Reread c.front read) (key : Text)
    (hmem : (key, v) ∈ c.optional) (hv : OptionalText v) :
    get read key = v ↔ isCutValue v = false := by
  obtain ⟨w, hget, hw⟩ := get_optional hc h hmem
  rw [hget]
  rcases hv with rfl | ⟨text, hne, rfl⟩
  · simp [truthy, isCutValue]
  · simpa [truthy, hne] using hw

theorem get_list (hc : c.Regular py) (h : Reread c.front read) {items : List Value}
    (hmem : (key, .list items) ∈ c.optional) :
    orElse (get read key) (.list []) = .list items := by
  obtain ⟨w, hget, hw⟩ := get_optional hc h hmem
  rw [hget, hw.mpr rfl]
  cases items with
  | nil | cons item items => rfl

theorem status_uncut : ∀ status ∈ validStatuses, isCutText status = false ∧ status ≠ [] := by
  decide

theorem get_status (hc : c.Regular py) (h : Reread c.front read) :
    orElse (get read statusKey) (.str stable) = .str c.status := by
  have hmem : (statusKey, if c.status = stable then .null else .str c.status) ∈ c.optional := by
    simp [Concept.optional]
  obtain ⟨hcut, hne⟩ := status_uncut c.status hc.status_valid
  obtain ⟨w, hget, hw⟩ := get_optional hc h hmem
  rw [hget]
  by_cases hstable : c.status = stable
  · rw [if_pos hstable, hstable]
    rfl
  · rw [if_neg hstable] at hw ⊢
    rw [hw.mpr hcut]
    simp [truthy, hne, orElse]

theorem conceptOf_reread (hc : c.Regular py) (h : Reread c.front read) (shown : Value → Text) :
    conceptOf shown read c.body = .ok { c with
      title := get read titleKey
      description := get read descriptionKey
      resource := get read resourceKey
      staleAfter := get read staleAfterKey
      extra := read.filter fun entry => entry.1 ∉ knownKeys } := by
  have htype : get read typeKey = .str c.type := by
    have hmem : (typeKey, .str c.type) ∈ c.front := by
      rw [hc.front_eq]
      exact mem_append_left _ mem_cons_self
    obtain ⟨w, hget, hw⟩ := get_reread h hc.front_nodup (known_uncut typeKey (by decide)) hmem
    rw [hget]
    exact hw.mpr (cut_of_trimmed hc.type_trimmed)
  have hverified : orElse (get read verifiedKey) (.list []) = .list (c.verified.map .map) :=
    get_list hc h (by simp [Concept.optional])
  have htags : orElse (get read tagsKey) (.list []) = .list (c.tags.map .str) :=
    get_list hc h (by simp [Concept.optional])
  have hsources : orElse (get read sourcesKey) (.list []) = .list (c.sources.map .map) :=
    get_list hc h (by simp [Concept.optional])
  have hgenerated : get read generatedKey = c.generated := by
    have hmem : (generatedKey, c.generated) ∈ c.optional := by simp [Concept.optional]
    obtain ⟨w, hget, hw⟩ := get_optional hc h hmem
    rw [hget]
    rcases hc.generated with heq | ⟨entries, hne, heq⟩
    · rw [heq]
      rfl
    · rw [heq] at hw ⊢
      rw [hw.mpr rfl]
      simp [truthy, hne]
  have hstrip : strip c.type = c.type := hc.type_trimmed
  unfold conceptOf
  rw [htype]
  dsimp only
  rw [hstrip, if_neg hc.type_ne, hverified, htags, get_status hc h, hsources]
  simp [iterated, hc.status_valid, hgenerated, filterMap_map, Function.comp_def, asMap?,
    bind, Except.bind]

theorem optional_whole (hc : c.Regular py) (key : Text) (hmem : (key, v) ∈ c.optional)
    (hwhole : Whole c.front) : isCutValue v = false := by
  cases htruthy : truthy v with
  | true =>
    have hfront : (key, v) ∈ c.front := by
      rw [hc.front_eq]
      apply mem_append_left
      apply mem_cons_of_mem
      exact mem_filter.mpr ⟨hmem, htruthy⟩
    exact (hwhole _ hfront).2
  | false => cases v <;> simp_all [isCutValue, isCutText, truthy]

theorem extra_front (hc : c.Regular py) :
    c.front.filter (fun entry => entry.1 ∉ knownKeys) = c.extra := by
  have hfields : c.fields.filter (fun entry => entry.1 ∉ knownKeys) = [] := by
    rw [filter_eq_nil_iff]
    intro entry hentry
    have hmem : entry.1 ∈ c.fields.map Prod.fst := mem_map_of_mem hentry
    simpa using (fields_keys c).mem hmem
  have hextra : c.extra.filter (fun entry => entry.1 ∉ knownKeys) = c.extra := by
    rw [filter_eq_self]
    intro entry hentry
    simpa using hc.extra_unknown entry hentry
  rw [hc.front_eq, filter_append, hfields, hextra, nil_append]

theorem whole_front_iff (hc : c.Regular py) :
    Whole c.front ↔ isCutValue c.title = false ∧ isCutValue c.description = false ∧
      isCutValue c.resource = false ∧ isCutValue c.staleAfter = false ∧ Whole c.extra := by
  constructor
  · intro hwhole
    refine ⟨optional_whole hc titleKey (by simp [Concept.optional]) hwhole,
      optional_whole hc descriptionKey (by simp [Concept.optional]) hwhole,
      optional_whole hc resourceKey (by simp [Concept.optional]) hwhole,
      optional_whole hc staleAfterKey (by simp [Concept.optional]) hwhole, ?_⟩
    intro entry hentry
    apply hwhole entry
    rw [hc.front_eq]
    exact mem_append_right _ hentry
  · rintro ⟨htitle, hdescription, hresource, hstale, hextra⟩ entry hentry
    rw [hc.front_eq] at hentry
    rcases mem_append.mp hentry with hentry | hentry
    · have hkey : entry.1 ∈ c.fields.map Prod.fst := mem_map_of_mem hentry
      refine ⟨known_uncut _ ((fields_keys c).mem hkey), ?_⟩
      rcases mem_cons.mp hentry with rfl | hentry
      · exact cut_of_trimmed hc.type_trimmed
      obtain ⟨hmem, -⟩ := mem_filter.mp hentry
      have hstatus := (status_uncut c.status hc.status_valid).1
      simp only [Concept.optional, mem_cons, not_mem_nil, or_false] at hmem
      rcases hmem with rfl | rfl | rfl | rfl | rfl | rfl | rfl | rfl | rfl
      · exact htitle
      · exact hdescription
      · exact hresource
      · rfl
      · dsimp only
        split
        · rfl
        · exact hstatus
      · exact hstale
      · rcases hc.generated with heq | ⟨entries, -, heq⟩ <;> rw [heq] <;> rfl
      · rfl
      · rfl
    · exact hextra entry hentry

theorem conceptOf_eq_iff (hc : c.Regular py) (h : Reread c.front read) (shown : Value → Text) :
    conceptOf shown read c.body = .ok c ↔ Whole c.front := by
  have htitle := get_text hc h titleKey (by simp [Concept.optional]) hc.title
  have hdescription := get_text hc h descriptionKey (by simp [Concept.optional]) hc.description
  have hresource := get_text hc h resourceKey (by simp [Concept.optional]) hc.resource
  have hstale := get_text hc h staleAfterKey (by simp [Concept.optional]) hc.staleAfter
  have hextra : read.filter (fun entry => entry.1 ∉ knownKeys) = c.extra ↔ Whole c.extra := by
    have hread := reread_filter (fun key => key ∉ knownKeys) h
    rw [extra_front hc] at hread
    exact hread.eq_iff
  rw [conceptOf_reread hc h, whole_front_iff hc, ← htitle, ← hdescription, ← hresource, ← hstale,
    ← hextra]
  rw [Except.ok.injEq]
  constructor
  · intro heq
    exact ⟨congrArg Concept.title heq, congrArg Concept.description heq,
      congrArg Concept.resource heq, congrArg Concept.staleAfter heq, congrArg Concept.extra heq⟩
  · rintro ⟨h₁, h₂, h₃, h₄, h₅⟩
    rw [h₁, h₂, h₃, h₄, h₅]

theorem cutAtFence_eq {front : Text} (after : Text)
    (hlines : ∀ line ∈ (front.splitOn '\n').tail, line.head? ≠ some '-') :
    cutAtFence (front ++ '\n' :: (fence ++ after)) = some (front, after) := by
  induction front with
  | nil => rfl
  | cons c rest ih =>
    rw [splitOn_cons_eq_if_modifyHead] at hlines
    by_cases hbreak : c = '\n'
    · rw [if_pos (by simpa using hbreak), tail_cons] at hlines
      have hdash : (rest ++ '\n' :: (fence ++ after)).head? ≠ some '-' := by
        cases rest with
        | nil => simp
        | cons d rest =>
          rintro hd
          cases hd
          obtain ⟨first, more, hsplit⟩ := exists_cons_of_ne_nil (splitOn_ne_nil '\n' rest)
          apply hlines ('-' :: first) _ rfl
          rw [splitOn_cons_eq_if_modifyHead, if_neg (by decide), hsplit]
          exact mem_cons_self
      have hnot : ('\n' :: fence).isPrefixOf (c :: (rest ++ '\n' :: (fence ++ after))) = false := by
        generalize rest ++ '\n' :: (fence ++ after) = text at hdash
        cases text with
        | nil => simp [fence, List.isPrefixOf]
        | cons d text =>
          have hd : d ≠ '-' := by simpa using hdash
          simp [fence, List.isPrefixOf, hd.symm]
      rw [cons_append, cutAtFence, hnot, ih fun line hline => hlines line (mem_of_mem_tail hline)]
      rfl
    · rw [if_neg (by simpa using hbreak), tail_modifyHead] at hlines
      have hnot : ('\n' :: fence).isPrefixOf (c :: (rest ++ '\n' :: (fence ++ after))) = false := by
        simp [List.isPrefixOf, Ne.symm hbreak]
      rw [cons_append, cutAtFence, hnot, ih hlines]
      rfl

theorem entries_head (v : Value) (more : Entries) :
    ∃ rest, ['\n'].intercalate (((typeKey, v) :: more).map entryText) = 't' :: rest := by
  obtain ⟨rest, hentry⟩ : ∃ rest, entryText (typeKey, v) = 't' :: rest := ⟨_, rfl⟩
  rw [map_cons, hentry]
  cases more with
  | nil => exact ⟨rest, by simp⟩
  | cons entry more =>
    rw [map_cons, intercalate_cons_cons]
    exact ⟨_, rfl⟩

def documentText (data : Entries) (body : Text) : Text :=
  fence ++ '\n' :: (['\n'].intercalate (data.map entryText) ++
    '\n' :: (fence ++ '\n' :: '\n' :: (strip body ++ ['\n'])))

theorem serialize_eq (c : Concept) : serialize py c =
      if everyEntry (isWritten py) c.front then .ok (documentText c.front c.body)
      else .error .raised := by
  unfold serialize dumpMapping
  split
  · rfl
  · rfl

theorem parse_documentText {more : Entries} (hnodup : (((typeKey, v) :: more).map Prod.fst).Nodup)
    (hproper : everyEntry (isProper py) ((typeKey, v) :: more) = true)
    (hwritten : everyEntry (isWritten py) ((typeKey, v) :: more) = true) (body : Text)
    (shown : Value → Text) :
    ∃ read, Reread ((typeKey, v) :: more) read ∧ (∀ entry ∈ read, Settled py entry.2) ∧
      parse py shown (documentText ((typeKey, v) :: more) body) =
        conceptOf shown read (strip body) := by
  obtain ⟨read, hread, hsettled, hload⟩ := loadMapping_dump hnodup hproper hwritten
  refine ⟨read, hread, hsettled, ?_⟩
  obtain ⟨rest, hrest⟩ := entries_head v more
  have hcut := cutAtFence_eq ('\n' :: '\n' :: (strip body ++ ['\n'])) fun line hline =>
    splitOn_head hproper hwritten (by simp) line (mem_of_mem_tail hline)
  unfold documentText
  generalize hfront : ['\n'].intercalate (((typeKey, v) :: more).map entryText) = front
    at hload hrest hcut ⊢
  have hstrip : strip ('\n' :: '\n' :: (strip body ++ ['\n'])) = strip body := by
    have hspace : isSpace '\n' = true := by decide
    rw [strip_cons_of_space hspace, strip_cons_of_space hspace, strip_concat_of_space hspace,
      strip_strip]
  have hstart : (fence ++ '\n' :: (front ++ '\n' :: (fence ++ '\n' :: '\n' ::
      (strip body ++ ['\n'])))).dropWhile (fun c => c = Char.ofNat 0xFEFF) =
      fence ++ '\n' :: (front ++ '\n' :: (fence ++ '\n' :: '\n' :: (strip body ++ ['\n']))) := rfl
  have hskip : ('\n' :: (front ++ '\n' :: (fence ++ '\n' :: '\n' ::
      (strip body ++ ['\n'])))).dropWhile (fun c => c = '\r' ∨ c = '\n') =
      front ++ '\n' :: (fence ++ '\n' :: '\n' :: (strip body ++ ['\n'])) := by
    rw [hrest]
    rfl
  have hfence : ∀ after, fence.isPrefixOf (fence ++ after) = true := fun _ => rfl
  have hdrop : ∀ after, (fence ++ after).drop fence.length = after := fun _ => rfl
  unfold parse
  rw [hstart]
  simp only [hfence, hdrop, hskip, hcut, hload, hstrip]
  rfl

/-- A concept is read back exactly if its mapping can be written and nothing of it is cut. -/
theorem parse_serialize_iff (hc : c.Regular py) (shown : Value → Text) :
    (∃ text, serialize py c = .ok text ∧ parse py shown text = .ok c) ↔
      everyEntry (isWritten py) c.front = true ∧ Whole c.front := by
  have hbody : strip c.body = c.body := hc.body_trimmed
  rw [serialize_eq]
  cases hwritten : everyEntry (isWritten py) c.front with
  | false => simp
  | true =>
    have hfront : c.front =
        (typeKey, .str c.type) :: ((c.optional.filter fun entry => truthy entry.2) ++ c.extra) :=
      hc.front_eq
    have hnodup := hc.front_nodup
    have hproper := hc.proper
    rw [hfront] at hnodup hproper hwritten
    obtain ⟨read, hread, -, hparse⟩ := parse_documentText hnodup hproper hwritten c.body shown
    rw [← hfront] at hread hparse
    rw [hbody] at hparse
    rw [← conceptOf_eq_iff hc hread shown, ← hparse]
    simp

structure Concept.Kept (py : Interpreter) (c : Concept) : Prop where
  regular : c.Regular py
  written : everyEntry (isWritten py) c.front = true
  whole : Whole c.front

def revise (py : Interpreter) (shown : Value → Text) (text : Text) (edit : Concept → Concept) :
    Except Failure Text :=
  match parse py shown text with
  | .error why => .error why
  | .ok c => (serialize py (edit c)).mapError .halted

/-- One change after another. -/
def reviseAll (py : Interpreter) (shown : Value → Text) :
    List (Concept → Concept) → Text → Except Failure Text
  | [], text => .ok text
  | edit :: edits, text =>
    match revise py shown text edit with
    | .error why => .error why
    | .ok text => reviseAll py shown edits text

def states (c : Concept) : List (Concept → Concept) → List Concept
  | [] => [c]
  | edit :: edits => c :: states (edit c) edits

theorem Concept.Kept.parse_serialize (h : c.Kept py) (shown : Value → Text) :
    ∃ text, serialize py c = .ok text ∧ parse py shown text = .ok c :=
  (parse_serialize_iff h.regular shown).mpr ⟨h.written, h.whole⟩

theorem reviseAll_eq {edits : List (Concept → Concept)}
    (hkept : ∀ state ∈ states c edits, state.Kept py) (shown : Value → Text) {text : Text}
    (htext : parse py shown text = .ok c) :
    ∃ text', reviseAll py shown edits text = .ok text' ∧
      parse py shown text' = .ok (edits.foldl (fun c edit => edit c) c) := by
  induction edits generalizing c text with
  | nil => exact ⟨text, rfl, htext⟩
  | cons edit edits ih =>
    have hnext : ∀ state ∈ states (edit c) edits, state.Kept py := fun state hstate =>
      hkept state (mem_cons_of_mem _ hstate)
    have hfirst : (edit c).Kept py := by
      apply hnext
      cases edits <;> exact mem_cons_self
    obtain ⟨written, hserialize, hparse⟩ := hfirst.parse_serialize shown
    have hrevise : revise py shown text edit = .ok written := by
      simp [revise, htext, hserialize, Except.mapError]
    obtain ⟨text', hall, hlast⟩ := ih hnext hparse
    refine ⟨text', ?_, hlast⟩
    rw [reviseAll, hrevise]
    exact hall

/-- A mapping is read back exactly if its integers can be written and no key and no string at
its top level is cut at a line break; so is a concept; and the states of a file that is read,
changed and written again and again are those that the changes make. -/
theorem frontmatter_round_trip (py : Interpreter) (shown : Value → Text) :
    (∀ data : Entries, (data.map Prod.fst).Nodup → everyEntry (isProper py) data = true →
      ((∃ text, dumpMapping py data = .ok text ∧ (loadMapping py text).outcome = .ok data) ↔
        everyEntry (isWritten py) data = true ∧ Whole data)) ∧
    (∀ c : Concept, c.Regular py →
      ((∃ text, serialize py c = .ok text ∧ parse py shown text = .ok c) ↔
        everyEntry (isWritten py) c.front = true ∧ Whole c.front)) ∧
    ∀ (c : Concept) (edits : List (Concept → Concept)), (∀ state ∈ states c edits, state.Kept py) →
        ∃ text text', serialize py c = .ok text ∧ reviseAll py shown edits text = .ok text' ∧
          parse py shown text' = .ok (edits.foldl (fun c edit => edit c) c) := by
  refine ⟨fun data hkeys hproper => load_dump_iff hkeys hproper,
    fun c hc => parse_serialize_iff hc shown, ?_⟩
  intro c edits hkept
  have hfirst : c.Kept py := by
    apply hkept
    cases edits <;> exact mem_cons_self
  obtain ⟨text, hserialize, hparse⟩ := hfirst.parse_serialize shown
  obtain ⟨text', hall, hlast⟩ := reviseAll_eq hkept shown hparse
  exact ⟨text, text', hserialize, hall, hlast⟩

/-- A note that ends in a line break. -/
theorem note_cut_at_break :
    ¬ ∃ text, dumpMapping ⟨.finite, 4300⟩ [(['n', 'o', 't', 'e'], .str ['o', 'k', '\n'])] = .ok text ∧
      (loadMapping ⟨.finite, 4300⟩ text).outcome =
        .ok [(['n', 'o', 't', 'e'], .str ['o', 'k', '\n'])] := by
  rw [load_dump_iff (by decide) (by decide)]
  rintro ⟨-, hwhole⟩
  have hcut := (hwhole _ mem_cons_self).2
  exact absurd hcut (by decide)

end Substrate.Okf
