import Substrate.Vectors.Store

/-!
One collection, one vector space. A write looks at the width of the vectors that are there
and at the name that is recorded, but neither a write without a name nor a rename looks at
both.
-/

namespace Substrate.Vectors

open Lib List Option

variable {Content Value Number : Type} {values : Values Value} {s : Store Content Value Number}

def Embeds (s : Store Content Value Number) (collection : String)
    (row : DocRow Content Value Number) : Prop :=
  0 < row.dims ∧ ∃ id, s.docs.get? (collection, id) = some row

/-- All embedded documents of a collection have one width, the recorded one if there is
one, and none has been written under a name other than the recorded one. -/
structure OneSpace (s : Store Content Value Number) : Prop where
  widths : ∀ collection row row', Embeds s collection row → Embeds s collection row' →
    row.dims = row'.dims
  recorded : ∀ collection space row, s.spaces.get? collection = some space →
    Embeds s collection row →
      row.dims = space.dims ∧ (row.writer = none ∨ row.writer = some space.space)

/-- The documents of `old` are in `new`, with those of `new` whose ids `old` has not, and
no other collection has lost or gained any. -/
def Merged (old new : String) (s s' : Store Content Value Number) : Prop :=
  (∀ id, s'.docs.get? (new, id) = (s.docs.get? (old, id)).or (s.docs.get? (new, id))) ∧
    ∀ name id, name ≠ old → name ≠ new → s'.docs.get? (name, id) = s.docs.get? (name, id)

/-- An embedded document of `new` that a rename of `old` to `new` leaves there. -/
def Stays (s : Store Content Value Number) (old new : String)
    (row : DocRow Content Value Number) : Prop :=
  0 < row.dims ∧ ∃ id, s.docs.get? (new, id) = some row ∧ s.docs.get? (old, id) = none

/-- The condition on a call: a batch without a name has the recorded width, and what
stays in a collection that another is renamed to is of that other's space. -/
def Fits (s : Store Content Value Number) : Call Content Value Number → Prop
  | .add documents collection none | .upsert documents collection none =>
    ∀ space, s.spaces.get? collection = some space → (∀ row, ¬ Embeds s collection row) →
      ∀ doc ∈ documents, ∀ vector, doc.embedding = some vector → vector.length = space.dims
  | .renameCollection old new =>
    old ≠ new ∧ ∀ row, Stays s old new row → (∀ row', Embeds s old row' → row.dims = row'.dims) ∧
      (∀ space, s.spaces.get? old = some space → row.dims = space.dims) ∧
      ∀ name, row.writer = some name → ∃ space, s.spaces.get? old = some space ∧ space.space = name
  | _ => True

/-- With it, a document that was written under a name is in a collection with that name
recorded. -/
structure Settled (s : Store Content Value Number) : Prop where
  widths : ∀ collection row row', Embeds s collection row → Embeds s collection row' →
    row.dims = row'.dims
  dims : ∀ collection space row, s.spaces.get? collection = some space →
    Embeds s collection row → row.dims = space.dims
  named : ∀ collection row name, Embeds s collection row → row.writer = some name →
    ∃ space, s.spaces.get? collection = some space ∧ space.space = name

theorem Settled.oneSpace (h : Settled s) : OneSpace s := by
  constructor
  · exact h.widths
  · intro collection space row hspace hrow
    refine ⟨h.dims collection space row hspace hrow, ?_⟩
    cases hwriter : row.writer with
    | none => exact .inl rfl
    | some name =>
      obtain ⟨space', hspace', rfl⟩ := h.named collection row name hrow hwriter
      rw [hspace] at hspace'
      cases hspace'
      exact .inr rfl

theorem settled_fresh : Settled (Store.fresh : Store Content Value Number) := by
  have hnone : ∀ collection row, ¬ Embeds (Store.fresh : Store Content Value Number)
      collection row := by
    rintro collection row ⟨_, id, hget⟩
    simp [Store.fresh] at hget
  constructor
  · intro collection row row' hrow
    exact absurd hrow (hnone collection row)
  · intro collection space row _ hrow
    exact absurd hrow (hnone collection row)
  · intro collection row name hrow
    exact absurd hrow (hnone collection row)

variable {s' : Store Content Value Number} {collection old new : String} {ids : List String}
    {key : String × String} {row : DocRow Content Value Number}
    {documents : List (Document Content Value Number)} {width : Nat} {after : Option Nat}
    {replace : Bool} {space : Option String} {docs : Docs Content Value Number}

theorem Settled.fewer (h : Settled s)
    (hdocs : ∀ collection row, Embeds s' collection row → Embeds s collection row)
    (hspaces : ∀ collection row, Embeds s' collection row →
      s'.spaces.get? collection = s.spaces.get? collection) : Settled s' := by
  constructor
  · intro collection row row' hrow hrow'
    exact h.widths collection row row' (hdocs _ _ hrow) (hdocs _ _ hrow')
  · intro collection space row hspace hrow
    rw [hspaces collection row hrow] at hspace
    exact h.dims collection space row hspace (hdocs _ _ hrow)
  · intro collection row name hrow hwriter
    rw [hspaces collection row hrow]
    exact h.named collection row name (hdocs _ _ hrow) hwriter

theorem get?_remove {removed : Docs Content Value Number × Nat}
    (h : (ids.foldl (Store.remove collection) removed).1.get? key = some row) :
    removed.1.get? key = some row := by
  induction ids generalizing removed with
  | nil => exact h
  | cons id rest ih =>
    have hrest := ih h
    simp only [Store.remove, Table.get?_erase] at hrest
    split at hrest
    · cases hrest
    · exact hrest

theorem settled_delete (h : Settled s) (ids : List String) (collection : String) :
    Settled (s.delete ids collection).1 := by
  apply h.fewer
  · rintro name row ⟨hdims, id, hget⟩
    exact ⟨hdims, id, get?_remove hget⟩
  · exact fun _ _ _ => rfl

theorem settled_deleteWhere (h : Settled s) (collection : String)
    (filter : List (String × Value)) : Settled (s.deleteWhere values collection filter).1 := by
  apply h.fewer
  · rintro name row ⟨hdims, id, hget⟩
    exact ⟨hdims, id, get?_remove hget⟩
  · exact fun _ _ _ => rfl

theorem settled_deleteCollection (h : Settled s) (collection : String) :
    Settled (s.deleteCollection collection).1 := by
  have hkept : ∀ name id row, (s.deleteCollection collection).1.docs.get? (name, id) = some row →
      name ≠ collection ∧ s.docs.get? (name, id) = some row := by
    intro name id row hget
    simpa [Store.deleteCollection, filter_eq_some_iff, and_comm] using hget
  apply h.fewer
  · rintro name row ⟨hdims, id, hget⟩
    exact ⟨hdims, id, (hkept name id row hget).2⟩
  · rintro name row ⟨_, id, hget⟩
    simp [Store.deleteCollection, Table.get?_erase, (hkept name id row hget).1]

theorem settled_eraseUnder (h : Settled s) (name : String) : Settled (s.eraseUnder name).1 := by
  have hkept : ∀ collection id row, (s.eraseUnder name).1.docs.get? (collection, id) = some row →
      Threads.under collection name = false ∧ s.docs.get? (collection, id) = some row := by
    intro collection id row hget
    simpa [Store.eraseUnder, filter_eq_some_iff, and_comm] using hget
  apply h.fewer
  · rintro collection row ⟨hdims, id, hget⟩
    exact ⟨hdims, id, (hkept collection id row hget).2⟩
  · rintro collection row ⟨_, id, hget⟩
    have hout := (hkept collection id row hget).1
    simp only [Store.eraseUnder, Table.get?_filter, hout]
    cases s.spaces.get? collection <;> simp

theorem known_of_embeds (h : Embeds s collection row) :
    ∃ row', Embeds s collection row' ∧ s.known collection = some row'.dims := by
  obtain ⟨hdims, id, hget⟩ := h
  have hfound : ∃ entry, s.docs.rows.find?
      (fun entry => entry.1.1 = collection ∧ 0 < entry.2.dims) = some entry := by
    rw [← isSome_iff_exists, List.find?_isSome]
    exact ⟨((collection, id), row), Table.mem_rows_iff.mpr hget, by simp [hdims]⟩
  obtain ⟨⟨⟨name, id'⟩, row'⟩, hfind⟩ := hfound
  have hmem := Table.mem_rows_iff.mp (mem_of_find?_eq_some hfind)
  have hmeets := List.find?_some hfind
  simp only [decide_eq_true_eq] at hmeets
  obtain ⟨rfl, hdims'⟩ := hmeets
  refine ⟨row', ⟨hdims', id', hmem⟩, ?_⟩
  unfold Store.known
  rw [hfind]
  rfl

theorem widen_known (h : documents.foldlM (Store.widen collection) (some width) = .ok after) :
    after = some width ∧
      ∀ doc ∈ documents, ∀ vector, doc.embedding = some vector → vector.length = width := by
  induction documents with
  | nil =>
    cases h
    exact ⟨rfl, fun doc hdoc => absurd hdoc not_mem_nil⟩
  | cons doc rest ih =>
    rw [foldlM_cons] at h
    obtain ⟨next, hnext, hrest⟩ := bind_ok_iff.mp h
    have hsame : next = some width ∧ ∀ vector, doc.embedding = some vector →
        vector.length = width := by
      cases hdoc : doc.embedding with
      | none =>
        simp only [Store.widen, hdoc] at hnext
        cases hnext
        exact ⟨rfl, nofun⟩
      | some vector =>
        simp only [Store.widen, hdoc] at hnext
        split at hnext
        · cases hnext
        · rename_i hlength
          cases hnext
          have hlength : vector.length = width := not_not.mp hlength
          refine ⟨by rw [hlength], ?_⟩
          intro vector' hvector
          cases hvector
          exact hlength
    obtain ⟨rfl, hdoc⟩ := hsame
    obtain ⟨hafter, hall⟩ := ih hrest
    refine ⟨hafter, ?_⟩
    intro doc' hmem
    rcases mem_cons.mp hmem with rfl | hmem
    · exact hdoc
    · exact hall doc' hmem

theorem widen_spec {before : Option Nat}
    (h : documents.foldlM (Store.widen collection) before = .ok after) :
    (∀ width, before = some width → after = some width) ∧
      ∀ doc ∈ documents, ∀ vector, doc.embedding = some vector → after = some vector.length := by
  cases before with
  | some width =>
    obtain ⟨rfl, hall⟩ := widen_known h
    refine ⟨fun width' hwidth => hwidth, ?_⟩
    intro doc hdoc vector hvector
    rw [hall doc hdoc vector hvector]
  | none =>
    have hnone : ∀ width, (none : Option Nat) = some width → after = some width := by
      intro width hwidth
      cases hwidth
    refine ⟨hnone, ?_⟩
    clear hnone
    induction documents with
    | nil => exact fun doc hdoc => absurd hdoc not_mem_nil
    | cons doc rest ih =>
      rw [foldlM_cons] at h
      obtain ⟨next, hnext, hrest⟩ := bind_ok_iff.mp h
      cases hdoc : doc.embedding with
      | none =>
        simp only [Store.widen, hdoc] at hnext
        cases hnext
        intro doc' hmem vector hvector
        rcases mem_cons.mp hmem with rfl | hmem
        · rw [hdoc] at hvector
          cases hvector
        · exact ih hrest doc' hmem vector hvector
      | some vector =>
        simp only [Store.widen, hdoc] at hnext
        cases hnext
        obtain ⟨rfl, hall⟩ := widen_known hrest
        intro doc' hmem vector' hvector
        rcases mem_cons.mp hmem with rfl | hmem
        · rw [hdoc] at hvector
          cases hvector
          rfl
        · rw [hall doc' hmem vector' hvector]

theorem get?_place
    (h : (documents.foldl (Store.place replace collection space) docs).get? key = some row) :
    docs.get? key = some row ∨
      key.1 = collection ∧ ∃ doc ∈ documents, row = Store.rowOf space doc := by
  induction documents generalizing docs with
  | nil => exact .inl h
  | cons doc rest ih =>
    have hone : (Store.place replace collection space docs doc).get? key = some row →
        docs.get? key = some row ∨ key.1 = collection ∧ row = Store.rowOf space doc := by
      intro hget
      cases replace with
      | true =>
        simp only [Store.place, if_true, Table.get?_upsert] at hget
        split at hget
        · rename_i hkey
          right
          rw [hkey]
          cases hget
          exact ⟨rfl, rfl⟩
        · exact .inl hget
      | false =>
        simp only [Store.place, Bool.false_eq_true, if_false, Table.get?_insert] at hget
        split at hget
        · rename_i hkey
          rw [← hkey] at hget
          cases hold : docs.get? key with
          | some row' =>
            rw [hold] at hget
            exact .inl hget
          | none =>
            rw [hold] at hget
            cases hget
            exact .inr ⟨by rw [hkey], rfl⟩
        · exact .inl hget
    rcases ih h with hfirst | ⟨hkey, doc', hmem, hrow⟩
    · rcases hone hfirst with hold | ⟨hkey, hrow⟩
      · exact .inl hold
      · exact .inr ⟨hkey, doc, mem_cons_self, hrow⟩
    · exact .inr ⟨hkey, doc', mem_cons_of_mem _ hmem, hrow⟩

theorem checkSpace_ok {space : String} (h : s.checkSpace collection space width true = .ok s') :
    s'.docs = s.docs ∧
      (s.spaces.get? collection = none ∨ s.spaces.get? collection = some ⟨space, width⟩) ∧
      ∀ name, s'.spaces.get? name =
        if name = collection then some ⟨space, width⟩ else s.spaces.get? name := by
  unfold Store.checkSpace at h
  split at h
  · rename_i hnone
    cases h
    refine ⟨rfl, .inl hnone, ?_⟩
    intro name
    simp [Table.get?_insert_of_none hnone]
  · rename_i row hrow
    split at h
    · cases h
    · rename_i hsame
      cases h
      obtain ⟨hspace, hwidth⟩ := not_or.mp hsame
      obtain rfl := not_not.mp hspace
      obtain rfl := not_not.mp hwidth
      refine ⟨rfl, .inr hrow, ?_⟩
      intro name
      split
      · rename_i hname
        rw [hname, hrow]
      · rfl

/-- What a batch leaves: every embedded row of its collection is of the width that the
loop ends with, and a row that was not there is that of a document. -/
structure Written (s s' : Store Content Value Number) (collection : String)
    (space : Option String) (documents : List (Document Content Value Number))
    (width : Option Nat) : Prop where
  before : ∀ row, Embeds s collection row → width = some row.dims
  rows : ∀ row, Embeds s' collection row → Embeds s collection row ∨ row.writer = space ∧
      ∃ doc ∈ documents, ∃ vector, doc.embedding = some vector ∧ row.dims = vector.length
  after : ∀ row, Embeds s' collection row → width = some row.dims
  others : ∀ name row, name ≠ collection → Embeds s' name row → Embeds s name row

theorem written_of_widen (h : Settled s) {width : Option Nat}
    (hwiden : documents.foldlM (Store.widen collection) (s.known collection) = .ok width)
    (hdocs : s'.docs = documents.foldl (Store.place replace collection space) s.docs) :
    Written s s' collection space documents width := by
  obtain ⟨hknown, hnew⟩ := widen_spec hwiden
  have hbefore : ∀ row, Embeds s collection row → width = some row.dims := by
    intro row hrow
    obtain ⟨row', hrow', heq⟩ := known_of_embeds hrow
    rw [h.widths collection row row' hrow hrow']
    exact hknown _ heq
  have hrows : ∀ row, Embeds s' collection row → Embeds s collection row ∨ row.writer = space ∧
        ∃ doc ∈ documents, ∃ vector, doc.embedding = some vector ∧ row.dims = vector.length := by
    rintro row ⟨hdims, id, hget⟩
    rw [hdocs] at hget
    rcases get?_place hget with hold | ⟨_, doc, hdoc, rfl⟩
    · exact .inl ⟨hdims, id, hold⟩
    · right
      refine ⟨rfl, doc, hdoc, ?_⟩
      cases hvector : doc.embedding with
      | none =>
        simp [Store.rowOf, hvector] at hdims
      | some vector =>
        exact ⟨vector, rfl, by simp [Store.rowOf, hvector]⟩
  refine ⟨hbefore, hrows, ?_, ?_⟩
  · intro row hrow
    rcases hrows row hrow with hold | ⟨_, doc, hdoc, vector, hvector, hdims⟩
    · exact hbefore row hold
    · rw [hdims]
      exact hnew doc hdoc vector hvector
  · rintro name row hname ⟨hdims, id, hget⟩
    rw [hdocs] at hget
    rcases get?_place hget with hold | ⟨hcollection, _⟩
    · exact ⟨hdims, id, hold⟩
    · exact absurd hcollection hname

theorem Settled.written (h : Settled s) {width : Option Nat}
    (hw : Written s s' collection space documents width)
    (hspaces : ∀ name, name ≠ collection → s'.spaces.get? name = s.spaces.get? name)
    (hdims : ∀ row recorded, s'.spaces.get? collection = some recorded →
      Embeds s' collection row → row.dims = recorded.dims)
    (hnamed : ∀ row name, Embeds s' collection row → row.writer = some name →
      ∃ recorded, s'.spaces.get? collection = some recorded ∧ recorded.space = name) :
    Settled s' := by
  constructor
  · intro name row row' hrow hrow'
    by_cases hname : name = collection
    · subst hname
      exact Option.some.inj ((hw.after row hrow).symm.trans (hw.after row' hrow'))
    · exact h.widths name row row' (hw.others name row hname hrow) (hw.others name row' hname hrow')
  · intro name recorded row hrecorded hrow
    by_cases hname : name = collection
    · subst hname
      exact hdims row recorded hrecorded hrow
    · rw [hspaces name hname] at hrecorded
      exact h.dims name recorded row hrecorded (hw.others name row hname hrow)
  · intro name row writer hrow hwriter
    by_cases hname : name = collection
    · subst hname
      exact hnamed row writer hrow hwriter
    · rw [hspaces name hname]
      exact h.named name row writer (hw.others name row hname hrow) hwriter

theorem settled_write (h : Settled s)
    (hfits : space = none → ∀ recorded, s.spaces.get? collection = some recorded →
      (∀ row, ¬ Embeds s collection row) →
        ∀ doc ∈ documents, ∀ vector, doc.embedding = some vector → vector.length = recorded.dims)
    (hrun : s.write documents collection replace space = .ok (s', ids)) : Settled s' := by
  unfold Store.write at hrun
  obtain ⟨width, hwiden, hrest⟩ := bind_ok_iff.mp hrun
  obtain ⟨s₁, hcheck, heq⟩ := bind_ok_iff.mp hrest
  simp only [Except.ok.injEq, Prod.mk.injEq] at heq
  obtain ⟨rfl, -⟩ := heq
  cases space with
  | none =>
    cases hcheck
    have hw : Written s
        { s with docs := documents.foldl (Store.place replace collection none) s.docs }
        collection none documents width :=
      written_of_widen h hwiden rfl
    apply h.written hw
    · exact fun _ _ => rfl
    · intro row recorded hrecorded hrow
      rcases hw.rows row hrow with hold | ⟨_, doc, hdoc, vector, hvector, hdims⟩
      · exact h.dims collection recorded row hrecorded hold
      · by_cases hany : ∃ row', Embeds s collection row'
        · obtain ⟨row', hrow'⟩ := hany
          have hsame := Option.some.inj ((hw.after row hrow).symm.trans (hw.before row' hrow'))
          rw [hsame]
          exact h.dims collection recorded row' hrecorded hrow'
        · rw [hdims]
          exact hfits rfl recorded hrecorded (fun row' hrow' => hany ⟨row', hrow'⟩) doc hdoc
            vector hvector
    · intro row name hrow hwriter
      rcases hw.rows row hrow with hold | ⟨hnone, _⟩
      · exact h.named collection row name hold hwriter
      · rw [hnone] at hwriter
        cases hwriter
  | some name =>
    cases width with
    | none =>
      cases hcheck
      have hw : Written s
          { s with docs := documents.foldl (Store.place replace collection (some name)) s.docs }
          collection (some name) documents none :=
        written_of_widen h hwiden rfl
      have hnone : ∀ row, ¬ Embeds { s with
          docs := documents.foldl (Store.place replace collection (some name)) s.docs }
            collection row :=
        fun row hrow => nomatch hw.after row hrow
      apply h.written hw
      · exact fun _ _ => rfl
      · exact fun row _ _ hrow => absurd hrow (hnone row)
      · exact fun row _ hrow => absurd hrow (hnone row)
    | some width =>
      obtain ⟨hdocs, hprior, hspaces⟩ := checkSpace_ok hcheck
      have hw : Written s
          { s₁ with docs := documents.foldl (Store.place replace collection (some name)) s₁.docs }
          collection (some name) documents (some width) :=
        written_of_widen h hwiden (by rw [hdocs])
      have hrecorded : s₁.spaces.get? collection = some ⟨name, width⟩ := by
        rw [hspaces, if_pos rfl]
      apply h.written hw
      · intro other hother
        exact (hspaces other).trans (if_neg hother)
      · intro row recorded hget hrow
        cases hrecorded.symm.trans hget
        exact (Option.some.inj (hw.after row hrow)).symm
      · intro row writer hrow hwriter
        refine ⟨⟨name, width⟩, hrecorded, ?_⟩
        rcases hw.rows row hrow with hold | ⟨hnew, _⟩
        · obtain ⟨recorded, hget, rfl⟩ := h.named collection row writer hold hwriter
          rcases hprior with hnone | hsame
          · cases hnone.symm.trans hget
          · cases hsame.symm.trans hget
            rfl
        · exact Option.some.inj (hnew.symm.trans hwriter)

theorem rekeyed_docs {docs' : Docs Content Value Number} (hne : old ≠ new)
    (h : (docs.filter fun key _ => ¬ (key.1 = new ∧ (docs.get? (old, key.2)).isSome)).rekey
      (fun key => (Store.renamed old new key.1, key.2)) = some docs') (name id : String)
    (row : DocRow Content Value Number) :
    docs'.get? (name, id) = some row ↔ name = new ∧ docs.get? (old, id) = some row ∨
      name = new ∧ docs.get? (new, id) = some row ∧ docs.get? (old, id) = none ∨
      name ≠ new ∧ name ≠ old ∧ docs.get? (name, id) = some row := by
  rw [Table.get?_rekey h]
  constructor
  · rintro ⟨⟨name₀, id₀⟩, hkey, hget⟩
    simp only [Prod.mk.injEq] at hkey
    obtain ⟨hname, rfl⟩ := hkey
    rw [Table.get?_filter, filter_eq_some_iff] at hget
    obtain ⟨hget, hkept⟩ := hget
    simp only [decide_eq_true_eq, not_and, not_isSome_iff_eq_none] at hkept
    unfold Store.renamed at hname
    by_cases hold : name₀ = old
    · subst hold
      rw [if_pos rfl] at hname
      exact .inl ⟨hname.symm, hget⟩
    · rw [if_neg hold] at hname
      subst hname
      by_cases hnew : name₀ = new
      · subst hnew
        exact .inr (.inl ⟨rfl, hget, hkept rfl⟩)
      · exact .inr (.inr ⟨hnew, hold, hget⟩)
  · rintro (⟨rfl, hget⟩ | ⟨rfl, hget, hnone⟩ | ⟨hnew, hold, hget⟩)
    · refine ⟨(old, id), by simp [Store.renamed], ?_⟩
      simp [hget, hne]
    · refine ⟨(name, id), by simp [Store.renamed], ?_⟩
      simp [hget, hnone]
    · refine ⟨(name, id), by simp [Store.renamed, hold], ?_⟩
      simp [hget, hnew]

theorem exists_rekeyed_docs (docs : Docs Content Value Number) (old new : String) :
    ∃ docs', (docs.filter fun key _ =>
      ¬ (key.1 = new ∧ (docs.get? (old, key.2)).isSome)).rekey
        (fun key => (Store.renamed old new key.1, key.2)) = some docs' := by
  apply Table.exists_rekey
  rintro ⟨name, id⟩ ⟨name', id'⟩ row row' hget hget' heq
  simp only [Prod.mk.injEq] at heq
  obtain ⟨hname, rfl⟩ := heq
  simp only [Table.get?_filter, filter_eq_some_iff, decide_eq_true_eq, not_and,
    not_isSome_iff_eq_none] at hget hget'
  unfold Store.renamed at hname
  split at hname <;> split at hname
  · simp_all
  · rename_i hold _
    have hnone := hget'.2 hname.symm
    rw [← hold, hget.1] at hnone
    cases hnone
  · rename_i _ hold
    have hnone := hget.2 hname
    rw [← hold, hget'.1] at hnone
    cases hnone
  · rw [hname]

theorem exists_rekeyed_spaces (spaces : Table String Space) (hne : old ≠ new) :
    ∃ spaces', (spaces.erase new).rekey (Store.renamed old new) = some spaces' ∧
      spaces'.get? new = spaces.get? old ∧
      ∀ name, name ≠ old → name ≠ new → spaces'.get? name = spaces.get? name := by
  obtain ⟨spaces', hspaces⟩ : ∃ spaces', (spaces.erase new).rekey (Store.renamed old new) =
      some spaces' := by
    apply Table.exists_rekey
    intro name name' space space' hget hget' hname
    simp only [Table.get?_erase] at hget hget'
    unfold Store.renamed at hname
    split at hget <;> split at hget' <;> grind
  refine ⟨spaces', hspaces, ?_, ?_⟩
  · ext space
    rw [Table.get?_rekey hspaces]
    constructor
    · rintro ⟨name, hname, hget⟩
      rw [Table.get?_erase] at hget
      unfold Store.renamed at hname
      split at hget <;> grind
    · intro hget
      exact ⟨old, by simp [Store.renamed], by simp [Table.get?_erase, hne, hget]⟩
  · intro name hold hnew
    ext space
    rw [Table.get?_rekey hspaces]
    constructor
    · rintro ⟨name', hname, hget⟩
      rw [Table.get?_erase] at hget
      unfold Store.renamed at hname
      split at hget <;> grind
    · intro hget
      exact ⟨name, by simp [Store.renamed, hold], by simp [Table.get?_erase, hnew, hget]⟩

theorem renameCollection_ok (s : Store Content Value Number) (hne : old ≠ new) :
    ∃ s' moved, s.renameCollection old new = .ok (s', moved) ∧ Merged old new s s' ∧
      (∀ id, s'.docs.get? (old, id) = none) ∧
      s'.spaces.get? new = s.spaces.get? old ∧
      ∀ name, name ≠ old → name ≠ new → s'.spaces.get? name = s.spaces.get? name := by
  obtain ⟨docs, hdocs⟩ := exists_rekeyed_docs s.docs old new
  obtain ⟨spaces, hspaces, hnew, hothers⟩ := exists_rekeyed_spaces s.spaces hne
  have hrow := rekeyed_docs hne hdocs
  obtain ⟨moved, hrun⟩ : ∃ moved, s.renameCollection old new = .ok (⟨docs, spaces⟩, moved) := by
    unfold Store.renameCollection
    simp only [hdocs, hspaces]
    exact ⟨_, rfl⟩
  refine ⟨⟨docs, spaces⟩, moved, hrun, ⟨?_, ?_⟩, ?_, hnew, hothers⟩
  · intro id
    ext row
    rw [hrow]
    cases hold : s.docs.get? (old, id) <;> simp
  · intro name id hold hnew
    ext row
    rw [hrow]
    simp [hold, hnew]
  · intro id
    rw [eq_none_iff_forall_ne_some]
    intro row hget
    rw [hrow] at hget
    simp [hne] at hget

theorem settled_renameCollection (h : Settled s) (hfits : Fits s (.renameCollection old new))
    {moved : Nat} (hrun : s.renameCollection old new = .ok (s', moved)) : Settled s' := by
  obtain ⟨hne, hstays⟩ := hfits
  obtain ⟨s₁, _, hok, ⟨hnew, hothers⟩, hgone, hspace, hspaces⟩ := renameCollection_ok s hne
  cases hok.symm.trans hrun
  have hrows : ∀ row, Embeds s' new row → Embeds s old row ∨ Stays s old new row := by
    rintro row ⟨hdims, id, hget⟩
    rw [hnew] at hget
    cases hold : s.docs.get? (old, id) with
    | some row' =>
      rw [hold] at hget
      cases hget
      exact .inl ⟨hdims, id, hold⟩
    | none =>
      rw [hold, none_or] at hget
      exact .inr ⟨hdims, id, hget, hold⟩
  have hplace : ∀ name row, Embeds s' name row →
      name = new ∨ name ≠ old ∧ name ≠ new ∧ Embeds s name row := by
    rintro name row ⟨hdims, id, hget⟩
    by_cases hname : name = new
    · exact .inl hname
    · right
      have hold : name ≠ old := by
        rintro rfl
        rw [hgone] at hget
        cases hget
      rw [hothers name id hold hname] at hget
      exact ⟨hold, hname, hdims, id, hget⟩
  constructor
  · intro name row row' hrow hrow'
    rcases hplace name row hrow with rfl | ⟨hold, hname, hbefore⟩
    · rcases hrows row hrow with hmoved | hleft
      · rcases hrows row' hrow' with hmoved' | hleft'
        · exact h.widths old row row' hmoved hmoved'
        · exact ((hstays row' hleft').1 row hmoved).symm
      · rcases hrows row' hrow' with hmoved' | hleft'
        · exact (hstays row hleft).1 row' hmoved'
        · obtain ⟨hdims, id, hget, _⟩ := hleft
          obtain ⟨hdims', id', hget', _⟩ := hleft'
          exact h.widths name row row' ⟨hdims, id, hget⟩ ⟨hdims', id', hget'⟩
    · rcases hplace name row' hrow' with heq | ⟨_, _, hbefore'⟩
      · exact absurd heq hname
      · exact h.widths name row row' hbefore hbefore'
  · intro name space row hget hrow
    rcases hplace name row hrow with rfl | ⟨hold, hname, hbefore⟩
    · rw [hspace] at hget
      rcases hrows row hrow with hmoved | hleft
      · exact h.dims old space row hget hmoved
      · exact (hstays row hleft).2.1 space hget
    · rw [hspaces name hold hname] at hget
      exact h.dims name space row hget hbefore
  · intro name row writer hrow hwriter
    rcases hplace name row hrow with rfl | ⟨hold, hname, hbefore⟩
    · rw [hspace]
      rcases hrows row hrow with hmoved | hleft
      · exact h.named old row writer hmoved hwriter
      · exact (hstays row hleft).2.2 writer hwriter
    · rw [hspaces name hold hname]
      exact h.named name row writer hbefore hwriter

theorem settled_after (values : Values Value) (h : Settled s)
    {call : Call Content Value Number} (hfits : Fits s call) :
    Settled (Store.after values call s) := by
  unfold Store.after
  cases hrun : s.perform values call with
  | error e => exact h
  | ok result =>
    obtain ⟨s', reply⟩ := result
    change Settled s'
    cases call with
    | add documents collection space | upsert documents collection space =>
      obtain ⟨⟨s₁, ids⟩, hwrite, heq⟩ := bind_ok_iff.mp hrun
      cases heq
      refine settled_write h ?_ hwrite
      rintro rfl
      exact hfits
    | delete ids collection =>
      cases hrun
      exact settled_delete h ids collection
    | deleteWhere collection filter =>
      cases hrun
      exact settled_deleteWhere h collection filter
    | deleteCollection collection =>
      cases hrun
      exact settled_deleteCollection h collection
    | renameCollection old new =>
      obtain ⟨⟨s₁, moved⟩, hrename, heq⟩ := bind_ok_iff.mp hrun
      cases heq
      exact settled_renameCollection h hfits hrename
    | eraseUnder name =>
      cases hrun
      exact settled_eraseUnder h name

/-- In a run of calls that fit, a collection has one space at each moment, and a rename
of one collection to another loses nothing. -/
theorem one_space (values : Values Value)
    (h : Steps (Store.after values) Fits (Store.fresh : Store Content Value Number) s) :
    OneSpace s ∧ ∀ old new, old ≠ new →
      Merged old new s (Store.after values (.renameCollection old new) s) := by
  have hsettled := h.invariant (P := Settled) (fun s call hs hfits =>
    settled_after values hs hfits) settled_fresh
  refine ⟨hsettled.oneSpace, ?_⟩
  intro old new hne
  obtain ⟨s', moved, hok, hmerged, _⟩ := renameCollection_ok s hne
  have hafter : Store.after values (.renameCollection old new) s = s' := by
    simp only [Store.after, Store.perform, hok]
    rfl
  rw [hafter]
  exact hmerged

section Runs

private def plain : Values Nat := ⟨0, fun a b => a = b⟩

private def vector (id : String) (embedding : List Nat) : Document String Nat Nat :=
  ⟨id, "text", [], some embedding⟩

private def notes : Store String Nat Nat :=
  Store.after plain (.upsert [vector "a" [1, 2]] "notes" (some "small")) .fresh

theorem one_space_renamed :
    OneSpace (Store.after plain (.renameCollection "notes" "archive") notes) := by
  have hnotes : Steps (Store.after plain) Fits (.fresh : Store String Nat Nat) notes :=
    Steps.single (Call.upsert [vector "a" [1, 2]] "notes" (some "small")) trivial
  have hfits : Fits notes (.renameCollection "notes" "archive") := by
    refine ⟨by decide, ?_⟩
    rintro row ⟨_, id, hget, _⟩
    have hmem := Table.mem_rows_iff.mpr hget
    have hrows : notes.docs.rows.map Prod.fst = [("notes", "a")] := by decide
    have hkey := mem_map_of_mem (f := Prod.fst) hmem
    rw [hrows] at hkey
    simp at hkey
  exact (one_space plain (hnotes.next _ hfits)).1

/-- A collection that is renamed to itself is lost, and one that is renamed to another
brings its width along. -/
theorem renamed_anyhow :
    (∃ s : Store String Nat Nat, Steps (Store.after plain) (fun _ _ => True) .fresh s ∧
      (s.docs.get? ("notes", "a")).isSome ∧
      (Store.after plain (.renameCollection "notes" "notes") s).docs.rows = []) ∧
    ∃ s : Store String Nat Nat, Steps (Store.after plain) (fun _ _ => True) .fresh s ∧
      ¬ OneSpace s := by
  have hnotes : Steps (Store.after plain) (fun _ _ => True) (.fresh : Store String Nat Nat) notes :=
    Steps.single (Call.upsert [vector "a" [1, 2]] "notes" (some "small")) trivial
  refine ⟨⟨notes, hnotes, by decide, by decide⟩, ?_⟩
  have hmixed := (hnotes.next (Call.upsert [vector "b" [1, 2, 3]] "drafts" none) trivial).next
    (.renameCollection "drafts" "notes") trivial
  refine ⟨_, hmixed, ?_⟩
  intro hspace
  have hlong := hspace.widths "notes" (Store.rowOf (some "small") (vector "a" [1, 2]))
    (Store.rowOf none (vector "b" [1, 2, 3])) ⟨by decide, "a", rfl⟩ ⟨by decide, "b", rfl⟩
  cases hlong

end Runs

end Substrate.Vectors
