import TreeSchema.Proofs.Repeats
import TreeSchema.Schema.Library
/-
  Normalized paths

  The components of a path are those its leading slash or dot stands for and
  those of what stands between its slashes (`File.components_append_slash`).
  While they are put on a stack, the stack is always the root with names
  above it, or names only: a double dot takes one of them away, the root
  included, and nothing from an empty stack. A path written from such a stack
  has just its components (`File.Kept.components_pathBytes`), and a path
  without dots keeps all of them (`File.normalize_of_dotless`), so normalizing
  twice is normalizing once. A part of a path that puts on the stack what it
  takes away again can be left out (`File.IsDetour.foldl_stepPath`).

  Since a library holds its texts under normalized paths, it finds a text
  under every path that is normalized to that of the text.
-/

namespace TreeSchema

namespace File

/-! ## The components of a path -/

theorem segmentsFrom_append_mark {α : Type} [DecidableEq α] (mark : α)
    (current before after : List α) :
    segmentsFrom mark current (before ++ mark :: after)
      = segmentsFrom mark current before ++ segmentsFrom mark [] after := by
  induction before generalizing current with
  | nil => simp [segmentsFrom]
  | cons c rest ih =>
    rw [List.cons_append, segmentsFrom, segmentsFrom]
    split
    · rw [ih, List.cons_append]
    · rw [ih]

theorem segmentsFrom_of_notMem {α : Type} [DecidableEq α] {mark : α} {text : List α}
    (h : mark ∉ text) (current : List α) :
    segmentsFrom mark current text = [current.reverse ++ text] := by
  induction text generalizing current with
  | nil => simp [segmentsFrom]
  | cons c rest ih =>
    rw [List.mem_cons, not_or] at h
    rw [segmentsFrom, if_neg (fun hc => h.1 hc.symm), ih h.2]
    simp

theorem mark_notMem_of_mem_segmentsFrom {α : Type} [DecidableEq α] {mark : α}
    {current text part : List α} (h : mark ∉ current)
    (hpart : part ∈ segmentsFrom mark current text) : mark ∉ part := by
  induction text generalizing current with
  | nil =>
    rw [segmentsFrom, List.mem_singleton] at hpart
    rwa [hpart, List.mem_reverse]
  | cons c rest ih =>
    rw [segmentsFrom] at hpart
    split at hpart
    · rcases List.mem_cons.mp hpart with rfl | hpart
      · rwa [List.mem_reverse]
      · exact ih List.not_mem_nil hpart
    · next hc =>
      refine ih ?_ hpart
      rw [List.mem_cons, not_or]
      exact ⟨fun hmark => hc hmark.symm, h⟩

theorem segmentsFrom_ne_nil {α : Type} [DecidableEq α] (mark : α) (current text : List α) :
    segmentsFrom mark current text ≠ [] := by
  induction text generalizing current with
  | nil => simp [segmentsFrom]
  | cons c rest ih =>
    rw [segmentsFrom]
    split
    · simp
    · exact ih _

def innerComponents (path : List UInt8) : List Component :=
  (segmentsFrom slash [] path).filterMap Component.ofSegment?

/-- What the head of a path says: that it is absolute, or that it begins with
a dot. -/
def leading (path : List UInt8) : List Component :=
  if path.head? = some slash then [.root]
  else if (segmentsFrom slash [] path).head? = some [dot] then [.here]
  else []

theorem components_eq (path : List UInt8) :
    components path = leading path ++ innerComponents path := by
  unfold components leading innerComponents
  dsimp only
  split
  · rfl
  · split
    · rfl
    · rfl

theorem innerComponents_append_slash (before after : List UInt8) :
    innerComponents (before ++ slash :: after)
      = innerComponents before ++ innerComponents after := by
  rw [innerComponents, segmentsFrom_append_mark, List.filterMap_append]
  rfl

theorem innerComponents_slash (path : List UInt8) :
    innerComponents (path ++ [slash]) = innerComponents path := by
  rw [innerComponents_append_slash, show innerComponents [] = [] from rfl, List.append_nil]

theorem head?_segmentsFrom_append_slash (before after : List UInt8) :
    (segmentsFrom slash [] (before ++ slash :: after)).head?
      = (segmentsFrom slash [] before).head? := by
  rw [segmentsFrom_append_mark, List.head?_append_of_ne_nil _ (segmentsFrom_ne_nil _ _ _)]

theorem leading_append_slash (before after : List UInt8) :
    leading (before ++ slash :: after) = leading (before ++ [slash]) := by
  have hhead : (before ++ slash :: after).head? = (before ++ [slash]).head? := by
    cases before <;> rfl
  rw [leading, leading, hhead, head?_segmentsFrom_append_slash, head?_segmentsFrom_append_slash]

/-- What follows a slash is added to what stands before it. -/
theorem components_append_slash (before after : List UInt8) :
    components (before ++ slash :: after)
      = components (before ++ [slash]) ++ innerComponents after := by
  rw [components_eq, components_eq, leading_append_slash, innerComponents_append_slash,
    innerComponents_slash, List.append_assoc]

/-- A slash at the end says nothing. -/
theorem components_slash {path : List UInt8} (h : path ≠ []) :
    components (path ++ [slash]) = components path := by
  rw [components_eq, components_eq, innerComponents_slash, leading, leading,
    List.head?_append_of_ne_nil _ h, head?_segmentsFrom_append_slash]

/-! ## Names -/

/-- Bytes that are a component of their own and name something. -/
structure IsPlainName (bytes : List UInt8) : Prop where
  ne_empty : bytes ≠ []
  ne_dot : bytes ≠ [dot]
  ne_dots : bytes ≠ [dot, dot]
  slash_notMem : slash ∉ bytes

theorem Component.ofSegment?_cases {segment : List UInt8} {c : Component}
    (h : Component.ofSegment? segment = some c) (hslash : slash ∉ segment) :
    c = .up ∨ ∃ bytes, IsPlainName bytes ∧ c = .name bytes := by
  unfold ofSegment? at h
  split at h
  · cases h
  · next hsome =>
    simp only [Bool.or_eq_true, decide_eq_true_eq, not_or] at hsome
    split at h
    · cases h
      exact Or.inl rfl
    · next hdots =>
      cases h
      exact Or.inr ⟨segment, ⟨hsome.1, hsome.2, hdots, hslash⟩, rfl⟩

theorem mem_innerComponents {path : List UInt8} {c : Component} (h : c ∈ innerComponents path) :
    c = .up ∨ ∃ bytes, IsPlainName bytes ∧ c = .name bytes := by
  obtain ⟨segment, hsegment, hc⟩ := List.mem_filterMap.mp h
  exact Component.ofSegment?_cases hc (mark_notMem_of_mem_segmentsFrom List.not_mem_nil hsegment)

namespace IsPlainName
variable {bytes : List UInt8}

theorem segmentsFrom_eq (h : IsPlainName bytes) : segmentsFrom slash [] bytes = [bytes] :=
  segmentsFrom_of_notMem h.slash_notMem []

theorem innerComponents_eq (h : IsPlainName bytes) : innerComponents bytes = [.name bytes] := by
  simp [innerComponents, h.segmentsFrom_eq, Component.ofSegment?, h.ne_empty, h.ne_dot, h.ne_dots]

theorem components_eq (h : IsPlainName bytes) : components bytes = [.name bytes] := by
  have hhead : bytes.head? ≠ some slash := fun hslash =>
    h.slash_notMem (List.mem_of_mem_head? hslash)
  have hdot : (segmentsFrom slash [] bytes).head? ≠ some [dot] := by
    simpa [h.segmentsFrom_eq] using h.ne_dot
  rw [File.components_eq, h.innerComponents_eq, leading, if_neg hhead, if_neg hdot,
    List.nil_append]

end IsPlainName

/-! ## The stack -/

/-- The components that can be kept, the last one first: names above the root
or above nothing. -/
inductive Kept : List Component → Prop where
  | nil : Kept []
  | root : Kept [.root]
  | name {bytes : List UInt8} {kept : List Component} (plain : IsPlainName bytes)
    (below : Kept kept) :
    Kept (.name bytes :: kept)

theorem Kept.tail {kept : List Component} (h : Kept kept) : Kept kept.tail := by
  cases h with
  | nil => exact .nil
  | root => exact .nil
  | name _ below => exact below

theorem Kept.foldl_innerComponents {kept inner : List Component} (h : Kept kept)
    (hinner : ∀ c ∈ inner, c = .up ∨ ∃ bytes, IsPlainName bytes ∧ c = .name bytes) :
    Kept (inner.foldl stepPath kept) := by
  induction inner generalizing kept with
  | nil => exact h
  | cons c rest ih =>
    apply ih
    · rcases hinner c List.mem_cons_self with rfl | ⟨bytes, hbytes, rfl⟩
      · exact h.tail
      · exact .name hbytes h
    · exact fun d hd => hinner d (List.mem_cons_of_mem c hd)

theorem kept_leading (path : List UInt8) : Kept ((leading path).foldl stepPath []) := by
  unfold leading
  split
  · exact .root
  · split
    · exact .nil
    · exact .nil

/-- What a path is normalized to can be kept. -/
theorem exists_kept (path : List UInt8) : ∃ kept, Kept kept ∧ normalize path = kept.reverse := by
  refine ⟨(components path).foldl stepPath [], ?_, rfl⟩
  rw [components_eq, List.foldl_append]
  exact (kept_leading path).foldl_innerComponents fun c => mem_innerComponents

theorem Kept.dotless {kept : List Component} (h : Kept kept) {c : Component}
    (hc : c ∈ kept) : c ≠ .here ∧ c ≠ .up := by
  induction h with
  | nil => cases hc
  | root =>
    rw [List.mem_singleton] at hc
    simp [hc]
  | name _ _ ih =>
    rcases List.mem_cons.mp hc with rfl | hc
    · simp
    · exact ih hc

/-- Without dots every component is kept. -/
theorem foldl_stepPath_of_dotless {parts : List Component}
    (h : ∀ c ∈ parts, c ≠ .here ∧ c ≠ .up) (kept : List Component) :
    parts.foldl stepPath kept = parts.reverse ++ kept := by
  induction parts generalizing kept with
  | nil => rfl
  | cons c rest ih =>
    have hstep : stepPath kept c = c :: kept := by
      have hc := h c List.mem_cons_self
      cases c with
      | root => rfl
      | here => exact absurd rfl hc.1
      | up => exact absurd rfl hc.2
      | name bytes => rfl
    rw [List.foldl_cons, hstep, ih fun d hd => h d (List.mem_cons_of_mem c hd)]
    simp

/-- A path without dots is normalized. -/
theorem normalize_of_dotless {path : List UInt8} (h : ∀ c ∈ components path, c ≠ .here ∧ c ≠ .up) :
    normalize path = components path := by
  rw [normalize, foldl_stepPath_of_dotless h, List.append_nil, List.reverse_reverse]

/-! ## Writing components as a path -/

/-- Something is put below a path behind a slash, unless the path is empty. -/
theorem exists_below_eq {path : List UInt8} (h : path ≠ []) :
    ∃ before, components (before ++ [slash]) = components path ∧
      ∀ piece, below path piece = before ++ slash :: piece := by
  by_cases hslash : path.getLast? = some slash
  · obtain ⟨before, rfl⟩ := List.getLast?_eq_some_iff.mp hslash
    refine ⟨before, rfl, fun piece => ?_⟩
    rw [below, if_pos (by simp), List.append_assoc]
    rfl
  · refine ⟨path, components_slash h, fun piece => ?_⟩
    rw [below, if_neg (by simp [h, hslash])]

theorem components_below {name : List UInt8} (h : IsPlainName name) (path : List UInt8) :
    components (below path name) = components path ++ [.name name] := by
  by_cases hpath : path = []
  · subst hpath
    have hbelow : below [] name = name := by simp [below]
    rw [hbelow, h.components_eq]
    rfl
  · obtain ⟨before, hbefore, hbelow⟩ := exists_below_eq hpath
    rw [hbelow, components_append_slash, hbefore, h.innerComponents_eq]

theorem pathBytes_concat_name (parts : List Component) (bytes : List UInt8) :
    pathBytes (parts ++ [.name bytes]) = below (pathBytes parts) bytes := by
  simp [pathBytes, Component.bytes]

/-- A path written from components that can be kept has just these. -/
theorem Kept.components_pathBytes {kept : List Component} (h : Kept kept) :
    components (pathBytes kept.reverse) = kept.reverse := by
  induction h with
  | nil => rfl
  | root => rfl
  | name plain _ ih => rw [List.reverse_cons, pathBytes_concat_name, components_below plain, ih]

theorem components_pathBytes_normalize (path : List UInt8) :
    components (pathBytes (normalize path)) = normalize path := by
  obtain ⟨kept, hkept, hpath⟩ := exists_kept path
  rw [hpath, hkept.components_pathBytes]

theorem dotless_pathBytes_normalize (path : List UInt8) :
    ∀ c ∈ components (pathBytes (normalize path)), c ≠ .here ∧ c ≠ .up := by
  intro c hc
  obtain ⟨kept, hkept, hpath⟩ := exists_kept path
  rw [components_pathBytes_normalize, hpath, List.mem_reverse] at hc
  exact hkept.dotless hc

theorem normalize_pathBytes_normalize (path : List UInt8) :
    normalize (pathBytes (normalize path)) = normalize path := by
  rw [normalize_of_dotless (dotless_pathBytes_normalize path), components_pathBytes_normalize]

/-! ## Detours -/

/-- A dot, or a name and the way back. -/
inductive IsDetour : List UInt8 → Prop where
  | dot : IsDetour [dot]
  | back {name : List UInt8} (plain : IsPlainName name) :
    IsDetour (name ++ slash :: [File.dot, File.dot])

/-- A detour leaves what is kept as it was. -/
theorem IsDetour.foldl_stepPath {piece : List UInt8} (h : IsDetour piece)
    (kept : List Component) : (innerComponents piece).foldl stepPath kept = kept := by
  cases h with
  | dot => rfl
  | back plain =>
    rw [innerComponents_append_slash, plain.innerComponents_eq]
    rfl

theorem IsDetour.normalize_between {piece : List UInt8} (h : IsDetour piece)
    (before after : List UInt8) :
    normalize (before ++ slash :: (piece ++ slash :: after))
      = normalize (before ++ slash :: after) := by
  rw [normalize, normalize, components_append_slash before (piece ++ slash :: after),
    components_append_slash before after, innerComponents_append_slash, List.foldl_append,
    List.foldl_append, List.foldl_append, h.foldl_stepPath]

theorem IsDetour.normalize_below {piece : List UInt8} (h : IsDetour piece) (path : List UInt8) :
    normalize (below path piece) = normalize path := by
  by_cases hpath : path = []
  · subst hpath
    have hbelow : below [] piece = piece := by simp [below]
    rw [hbelow]
    cases h with
    | dot => rfl
    | back plain =>
      rw [normalize, components_append_slash, components_slash plain.ne_empty, plain.components_eq]
      rfl
  · obtain ⟨before, hbefore, hbelow⟩ := exists_below_eq hpath
    rw [hbelow, normalize, components_append_slash, List.foldl_append, h.foldl_stepPath, hbefore,
      normalize]

end File

/-! ## Libraries -/

namespace Schema.Library

open File hiding normalize

variable {files : List (List UInt8 × String)} {path : List UInt8}

theorem find?_ofFiles (files : List (List UInt8 × String)) (path : List UInt8) :
    (ofFiles files).files.find? (fun known => known.1 == File.normalize path)
      = (files.reverse.find? fun f => File.normalize f.1 == File.normalize path).map
          fun f => (File.normalize f.1, f.2) :=
  List.find?_map

/-- A text is found under every path that is normalized to the path of its
file, if that of no other file is. -/
theorem read_of_mem (hfiles : (files.map fun f => File.normalize f.1).Nodup)
    {f : List UInt8 × String} (hf : f ∈ files)
    (hpath : File.normalize f.1 = File.normalize path) :
    (ofFiles files).read path = .ok f.2 := by
  have hreverse : (files.reverse.map fun f => File.normalize f.1).Nodup := by
    rw [List.map_reverse]
    exact List.nodup_reverse.mpr hfiles
  have hfound : files.reverse.find? (fun f => File.normalize f.1 == File.normalize path)
      = some f := by
    refine find?_of_nodup_map hreverse (List.mem_reverse.mpr hf) fun g _ => ?_
    rw [beq_iff_eq, hpath]
  have hread := find?_ofFiles files path
  rw [hfound] at hread
  unfold read
  simp only [hread, Option.map_some]

theorem read_of_forall_ne (h : ∀ f ∈ files, File.normalize f.1 ≠ File.normalize path) :
    (ofFiles files).read path = .error (.unreadable (Text.decodeLossy path)
      ("file not found in memory: " ++ Text.decodeLossy (pathBytes (File.normalize path)))) := by
  have hmissing : files.reverse.find? (fun f => File.normalize f.1 == File.normalize path)
      = none := by
    rw [List.find?_eq_none]
    intro f hf
    simpa using h f (List.mem_reverse.mp hf)
  have hread := find?_ofFiles files path
  rw [hmissing] at hread
  unfold read
  simp only [hread, Option.map_none]

/-- A path that is normalized has no dots left, a path without dots is its own
normalized path, and the normalized path is the same if a detour is put behind
a slash of the path or at its end. A library whose files have different
normalized paths, in whatever order they were put there, gives under a path
the text of the file with the same normalized path, and says that there is
none otherwise. -/
theorem normal_path_canonical (path : List UInt8) :
    components (pathBytes (File.normalize path)) = File.normalize path ∧
    (∀ c ∈ components (pathBytes (File.normalize path)), c ≠ .here ∧ c ≠ .up) ∧
    ((∀ c ∈ components path, c ≠ .here ∧ c ≠ .up) → File.normalize path = components path) ∧
    File.normalize (pathBytes (File.normalize path)) = File.normalize path ∧
    (∀ piece, IsDetour piece → File.normalize (below path piece) = File.normalize path ∧
      ∀ before after, path = before ++ slash :: after →
        File.normalize (before ++ slash :: (piece ++ slash :: after)) = File.normalize path) ∧
    ∀ files order : List (List UInt8 × String), (files.map fun f => File.normalize f.1).Nodup →
      order.Perm files →
        (∀ f ∈ files, File.normalize f.1 = File.normalize path →
          (ofFiles order).read path = .ok f.2) ∧
        ((∀ f ∈ files, File.normalize f.1 ≠ File.normalize path) →
          (ofFiles order).read path = .error (.unreadable (Text.decodeLossy path)
            ("file not found in memory: "
              ++ Text.decodeLossy (pathBytes (File.normalize path))))) := by
  refine ⟨components_pathBytes_normalize path, dotless_pathBytes_normalize path,
    normalize_of_dotless, normalize_pathBytes_normalize path, ?_, ?_⟩
  · intro piece hpiece
    refine ⟨hpiece.normalize_below path, fun before after hpath => ?_⟩
    rw [hpath, hpiece.normalize_between]
  · intro files order hfiles horder
    have hnodup : (order.map fun f => File.normalize f.1).Nodup :=
      (horder.map _).nodup_iff.mpr hfiles
    constructor
    · intro f hf hpath
      exact read_of_mem hnodup (horder.mem_iff.mpr hf) hpath
    · intro hmissing
      exact read_of_forall_ne fun f hf => hmissing f (horder.mem_iff.mp hf)

def dottedPath : List UInt8 := Text.encode "/a/b/../c" ++ slash :: Text.encode "./d"

theorem dotted_path_canonical :
    File.normalize dottedPath = [.root, .name [97], .name [99], .name [100]] ∧
      File.normalize (Text.encode "/a/b/../c/x/.././d") = File.normalize dottedPath ∧
      (ofFiles [(Text.encode "t", ""), (Text.encode "/s/./root.schema", "$a: 'x")]).read
        (Text.encode "/s/sub/../root.schema") = .ok "$a: 'x" ∧
      (ofFiles [(Text.encode "/s", "")]).read (slash :: dot :: dot :: slash :: [0xFF])
        = .error (.unreadable "/../\uFFFD" "file not found in memory: \uFFFD") := by
  have hname : IsPlainName (Text.encode "x") :=
    ⟨by decide +kernel, by decide +kernel, by decide +kernel, by decide +kernel⟩
  obtain ⟨_, _, _, _, hdetour, _⟩ := normal_path_canonical dottedPath
  obtain ⟨_, _, _, _, _, hread⟩ := normal_path_canonical (Text.encode "/s/sub/../root.schema")
  obtain ⟨_, _, _, _, _, hmissing⟩ :=
    normal_path_canonical (slash :: dot :: dot :: slash :: [0xFF])
  refine ⟨by decide +kernel, ?_, ?_, ?_⟩
  · have hpath : Text.encode "/a/b/../c/x/.././d" = Text.encode "/a/b/../c" ++ slash ::
        ((Text.encode "x" ++ slash :: [dot, dot]) ++ slash :: Text.encode "./d") := by decide +kernel
    rw [hpath]
    exact (hdetour _ (.back hname)).2 _ _ rfl
  · have hfound := (hread [(Text.encode "/s/./root.schema", "$a: 'x"), (Text.encode "t", "")] _
      (by decide +kernel) (List.Perm.swap _ _ _)).1
    exact hfound (Text.encode "/s/./root.schema", "$a: 'x") (by decide +kernel) (by decide +kernel)
  · have hshown : Text.decodeLossy (slash :: dot :: dot :: slash :: [0xFF]) = "/../\uFFFD" := by
      decide +kernel
    have hnormal : Text.decodeLossy (pathBytes (File.normalize
        (slash :: dot :: dot :: slash :: [0xFF]))) = "\uFFFD" := by
      decide +kernel
    have hnone := (hmissing [(Text.encode "/s", "")] _ (by decide +kernel)
      (List.Perm.refl _)).2 (by decide +kernel)
    rw [hshown, hnormal] at hnone
    exact hnone

end Schema.Library

end TreeSchema
