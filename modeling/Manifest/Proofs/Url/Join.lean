import Manifest.Proofs.List.MapM
import Manifest.Proofs.Path.Split
import Manifest.Proofs.Url.Percent

/-! Adding segments to the path of an address. A segment stays what it is unless it is one dot or
two, or holds tabs or line breaks. Two addresses are peculiar: the path of two slashes loses its
empty segment, and the bare path of a file writes a drive with a colon. In all these cases the path
that comes of it is not that of the address with the segments behind it. -/
namespace Manifest

namespace Url

open Text.Utf8 (octets)

variable {scheme : List Char} {path before : List (List Char)} {s t : String}
  {segments : List String}

/-- The segments of a path. A path of one slash has none. -/
def parts (path : List (List Char)) : List (List Char) := if path = [[]] then [] else path

/-- The path that segments make. Without any it is one slash. -/
def rooted (segments : List (List Char)) : List (List Char) :=
  if segments = [] then [[]] else segments

/-- The segments that others are added to: an empty one at the end is left out. -/
def front (u : Url) : List (List Char) :=
  if u.path.getLast? = some [] then u.path.dropLast else u.path

/-- Segments that stay what they are: neither one dot nor two, without tabs and line breaks. -/
def Kept (s : String) : Prop := s ≠ "." ∧ s ≠ ".." ∧ ∀ c ∈ s.toList, isLineBreakOrTab c = false

instance (s : String) : Decidable (Kept s) :=
  @instDecidableAnd _ _ _ (@instDecidableAnd _ _ _ (List.decidableBAll _ s.toList))

/-- A letter with a bar behind it, which names a drive. -/
def Barred (s : String) : Prop := ∃ c : Char, c.isAlpha = true ∧ s.toList = [c, '|']

/-- Segments that an address takes as they are. A path of two slashes loses its empty segment to the
first of them, and in the bare path of a file a first one that names a drive by a bar gets a
colon. -/
structure Fits (u : Url) (segments : List String) : Prop where
  kept : ∀ s ∈ segments, Kept s
  slash : segments ≠ [] → u.front ≠ [[]]
  drive : isFile u.scheme = true → u.front = [] → ∀ s ∈ segments.head?, ¬Barred s

/-- A segment of a path holds a text: it decodes to the text, and no separator is in it. -/
def Holds (p : List Char) (s : String) : Prop :=
  decode p = Text.Utf8.encode s ∧ ∀ x ∈ ['/', '?', '#'], x ∉ p

def written (scheme : List Char) (s : String) : List Char :=
  encode (segmentReserved scheme) s.toList

/-- What is added for a segment: it loses its tabs and line breaks. -/
def stripped (scheme : List Char) (s : String) : List Char :=
  encode (segmentReserved scheme) (s.toList.filter fun c => !isLineBreakOrTab c)

@[simp] theorem parts_nil : parts [] = [] := rfl

theorem parts_of_ne (h : path ≠ [[]]) : parts path = path := if_neg h

theorem ne_of_getLast? (h : path.getLast? ≠ some []) : path ≠ [[]] := by
  rintro rfl
  exact h rfl

theorem parts_concat_of_ne {p : List Char} (h : p ≠ []) (path : List (List Char)) :
    parts (path ++ [p]) = path ++ [p] :=
  parts_of_ne (ne_of_getLast? (by simpa using h))

@[simp] theorem rooted_parts (path : List (List Char)) : rooted (parts path) = rooted path := by
  by_cases h : path = [[]]
  · rw [h]
    rfl
  · rw [parts_of_ne h]

theorem eq_of_rooted {a b : List (List Char)} (h : rooted a = rooted b) (hne : b ≠ [])
    (hlast : b.getLast? ≠ some []) : a = b := by
  rw [rooted, rooted, if_neg hne] at h
  split at h
  · exact absurd h.symm (ne_of_getLast? hlast)
  · exact h

theorem parts_dropEmptyEnd (u : Url) : parts (dropEmptyEnd u.path) = parts u.front := by
  unfold dropEmptyEnd front
  by_cases hlast : u.path.getLast? = some []
  · by_cases hlen : 2 ≤ u.path.length
    · rw [if_pos ⟨hlen, hlast⟩, if_pos hlast]
    · have hone : u.path = [[]] := by
        obtain ⟨init, hinit⟩ := List.getLast?_eq_some_iff.mp hlast
        have hnil : init = [] := by
          have hlength := congrArg List.length hinit
          rw [List.length_append, List.length_singleton] at hlength
          exact List.eq_nil_of_length_eq_zero (by omega)
        rw [hinit, hnil, List.nil_append]
      rw [hone]
      rfl
  · rw [if_neg (fun h => hlast h.2), if_neg hlast]

theorem decode_written (scheme : List Char) (s : String) :
    decode (written scheme s) = Text.Utf8.encode s :=
  decode_encode (percent_mem_segmentReserved scheme) s.toList

theorem holds_written (scheme : List Char) (s : String) : Holds (written scheme s) s :=
  ⟨decode_written scheme s, fun _ hx => separator_notMem_encode scheme s.toList hx⟩

theorem eq_of_written {p : List Char} (h : written scheme s = p)
    (hplain : decode p = Text.Utf8.encode t) : s = t := by
  have hdecode := decode_written scheme s
  rw [h, hplain] at hdecode
  exact (Text.Utf8.encode_injective hdecode).symm

theorem written_ne_nil (h : s ≠ "") (scheme : List Char) : written scheme s ≠ [] :=
  fun hnil => h (eq_of_written hnil rfl)

theorem Holds.ne_nil {p : List Char} (h : Holds p s) (hne : s ≠ "") : p ≠ [] := by
  rintro rfl
  exact hne (Text.Utf8.encode_injective h.1.symm)

theorem exists_of_isDrive {p : List Char} (h : isDrive p = true) :
    ∃ c d : Char, p = [c, d] ∧ c.isAlpha = true ∧ (d = ':' ∨ d = '|') := by
  match p, h with
  | [c, d], h =>
    rw [isDrive, Bool.and_eq_true, Bool.or_eq_true, beq_iff_eq, beq_iff_eq] at h
    exact ⟨c, d, rfl, h⟩

theorem decode_drive {c d : Char} (hc : c.isAlpha = true) (hd : d = ':' ∨ d = '|') :
    decode [c, d] = Text.Utf8.encode (String.ofList [c, d]) := by
  have hcne : c ≠ '%' := by
    rintro rfl
    exact absurd hc (by decide)
  have hdne : d ≠ '%' := by
    rcases hd with rfl | rfl <;> decide
  rw [decode_cons_of_ne hcne, decode_cons_of_ne hdne, Text.Utf8.encode, String.toList_ofList]
  rfl

theorem kept_drive {c : Char} (hc : c.isAlpha = true) : Kept (String.ofList [c, ':']) := by
  have hlength : ∀ t : String, t.toList.getLast? ≠ some ':' → String.ofList [c, ':'] ≠ t := by
    rintro t ht rfl
    exact ht (by rw [String.toList_ofList]; rfl)
  refine ⟨hlength _ (by decide), hlength _ (by decide), fun x hx => ?_⟩
  rw [String.toList_ofList] at hx
  rcases List.mem_cons.mp hx with rfl | hx
  · rw [isLineBreakOrTab, Bool.or_eq_false_iff, Bool.or_eq_false_iff]
    refine ⟨⟨?_, ?_⟩, ?_⟩ <;>
    · refine beq_false_of_ne ?_
      rintro rfl
      exact absurd hc (by decide)
  · obtain rfl := List.mem_singleton.mp hx
    decide

/-- One segment comes to stand behind a path. It is what it was, unless it is a drive. -/
theorem exists_extend (scheme : List Char) (path : List (List Char)) (p : List Char) :
    ∃ q, extend scheme path p = path ++ [q] ∧
      (q ≠ p → isFile scheme = true ∧ path = [] ∧ ∃ c, c.isAlpha = true ∧ p = [c, '|'] ∧
        q = [c, ':']) := by
  unfold extend
  split
  · rename_i h
    simp only [Bool.and_eq_true, List.isEmpty_iff] at h
    obtain ⟨⟨hfile, rfl⟩, hdrive⟩ := h
    obtain ⟨c, d, rfl, hc, hd⟩ := exists_of_isDrive hdrive
    refine ⟨[c, ':'], rfl, fun hne => ⟨hfile, rfl, c, hc, ?_, rfl⟩⟩
    rcases hd with rfl | rfl
    · exact absurd rfl hne
    · rfl
  · exact ⟨p, rfl, fun h => absurd rfl h⟩

theorem climb_eq_or (scheme : List Char) (path : List (List Char)) :
    climb scheme path = path ∨ climb scheme path = path.dropLast := by
  unfold climb
  split
  · exact .inl rfl
  · exact .inr rfl

theorem addSegment_eq (h : s ≠ "." ∧ s ≠ "..") (scheme : List Char) (path : List (List Char)) :
    addSegment scheme path s =
      if stripped scheme s = ['.', '.'] then climb scheme (parts path) ++ [[]]
      else if stripped scheme s = ['.'] then parts path ++ [[]]
      else extend scheme (parts path) (stripped scheme s) := by
  rw [addSegment, if_neg (not_or.mpr h)]
  rfl

theorem decode_stripped (scheme : List Char) (s : String) :
    decode (stripped scheme s) =
      (s.toList.filter fun c => !isLineBreakOrTab c).flatMap octets :=
  decode_encode (percent_mem_segmentReserved scheme) _

theorem Kept.stripped_eq (h : Kept s) (scheme : List Char) :
    stripped scheme s = written scheme s := by
  have hfilter : (s.toList.filter fun c => !isLineBreakOrTab c) = s.toList :=
    List.filter_eq_self.mpr fun c hc => by rw [h.2.2 c hc]; rfl
  rw [stripped, hfilter, written]

theorem notMem_of_decode_stripped
    (h : decode (stripped scheme s) = Text.Utf8.encode s) :
    ∀ c ∈ s.toList, isLineBreakOrTab c = false := by
  rw [decode_stripped] at h
  intro c hc
  simpa using List.filter_eq_self.mp (Text.Utf8.flatMap_octets_injective h) c hc

theorem Kept.addSegment_eq_extend (h : Kept s) (scheme : List Char) (path : List (List Char)) :
    addSegment scheme path s = extend scheme (parts path) (written scheme s) := by
  have hone : written scheme s ≠ ['.'] := fun hp => h.1 (eq_of_written (t := ".") hp (by decide))
  have htwo : written scheme s ≠ ['.', '.'] :=
    fun hp => h.2.1 (eq_of_written (t := "..") hp (by decide))
  rw [addSegment_eq ⟨h.1, h.2.1⟩, h.stripped_eq, if_neg htwo, if_neg hone]

theorem addSegment_of_kept (h : Kept s)
    (hdrive : isFile scheme = true → parts path = [] → ¬Barred s) :
    addSegment scheme path s = parts path ++ [written scheme s] := by
  obtain ⟨q, hq, hsame⟩ := exists_extend scheme (parts path) (written scheme s)
  rw [h.addSegment_eq_extend, hq]
  by_cases hne : q = written scheme s
  · rw [hne]
  · obtain ⟨hfile, hnil, c, hc, hp, -⟩ := hsame hne
    have hs : s = String.ofList [c, '|'] := eq_of_written hp (decode_drive hc (.inr rfl))
    exact absurd ⟨c, hc, by rw [hs, String.toList_ofList]⟩ (hdrive hfile hnil)

theorem parts_foldl_addSegment (hne : ∀ s ∈ segments, s ≠ "") (h : ∀ s ∈ segments, Kept s)
    (hdrive : isFile scheme = true → parts path = [] → ∀ s ∈ segments.head?, ¬Barred s) :
    parts (segments.foldl (addSegment scheme) path) =
      parts path ++ segments.map (written scheme) := by
  induction segments generalizing path with
  | nil => simp
  | cons s segments ih =>
    obtain ⟨hs, hsegments⟩ := List.forall_mem_cons.mp h
    obtain ⟨hsne, hsegmentsne⟩ := List.forall_mem_cons.mp hne
    have hadd : parts (addSegment scheme path s) = parts path ++ [written scheme s] := by
      rw [addSegment_of_kept hs fun hfile hnil => hdrive hfile hnil s rfl]
      exact parts_concat_of_ne (written_ne_nil hsne scheme) _
    have hrest : parts (addSegment scheme path s) ≠ [] := by simp [hadd]
    rw [List.foldl_cons, ih hsegmentsne hsegments fun _ hnil => absurd hnil hrest, hadd,
      List.map_cons, List.append_assoc, List.singleton_append]

theorem length_parts_concat_nil (path : List (List Char)) :
    (parts (path ++ [[]])).length = if path = [] then 0 else path.length + 1 := by
  by_cases h : path = []
  · subst h
    rfl
  · have hne : path ++ [[]] ≠ [[]] := by simpa using h
    rw [parts_of_ne hne, if_neg h, List.length_append, List.length_singleton]

theorem parts_concat_nil (path : List (List Char)) :
    (parts (path ++ [[]])).length ≤ path.length ∨ parts (path ++ [[]]) = path ++ [[]] := by
  by_cases h : path = []
  · exact .inl (by rw [length_parts_concat_nil, if_pos h]; exact Nat.zero_le _)
  · exact .inr (parts_of_ne (by simpa using h))

/-- A segment makes a path longer by one at most. If it does, it is added at the end, and if it can
be read back there, it is one that stays what it is. -/
theorem addSegment_cases (hne : s ≠ "") (scheme : List Char) (path : List (List Char)) :
    (parts (addSegment scheme path s)).length ≤ (parts path).length ∨
      ∃ p, parts (addSegment scheme path s) = parts path ++ [p] ∧
        (decode p = Text.Utf8.encode s → Kept s) := by
  by_cases hdot : s = "." ∨ s = ".."
  · left
    rw [addSegment, if_pos hdot]
  have hempty : (parts (parts path ++ [[]])).length ≤ (parts path).length ∨
      ∃ p, parts (parts path ++ [[]]) = parts path ++ [p] ∧
        (decode p = Text.Utf8.encode s → Kept s) := by
    refine (parts_concat_nil (parts path)).imp id fun h => ⟨[], h, fun hdecode => absurd ?_ hne⟩
    exact Text.Utf8.encode_injective hdecode.symm
  rw [addSegment_eq (not_or.mp hdot)]
  split
  · rcases climb_eq_or scheme (parts path) with hclimb | hclimb
    · rw [hclimb]
      exact hempty
    · -- Two dots that were apart take the place of the last segment.
      left
      rw [hclimb, length_parts_concat_nil]
      split
      · exact Nat.zero_le _
      · rename_i hlast
        have hpos : 0 < (parts path).dropLast.length := List.length_pos_iff.mpr hlast
        rw [List.length_dropLast] at hpos ⊢
        omega
  split
  · exact hempty
  · obtain ⟨q, hq, hsame⟩ := exists_extend scheme (parts path) (stripped scheme s)
    rw [hq]
    by_cases hconcat : parts path ++ [q] = [[]]
    · left
      rw [hconcat]
      exact Nat.zero_le _
    · refine .inr ⟨q, parts_of_ne hconcat, fun hdecode => ?_⟩
      by_cases hqs : q = stripped scheme s
      · subst hqs
        exact ⟨(not_or.mp hdot).1, (not_or.mp hdot).2, notMem_of_decode_stripped hdecode⟩
      · obtain ⟨-, -, c, hc, -, rfl⟩ := hsame hqs
        rw [decode_drive hc (.inl rfl)] at hdecode
        exact Text.Utf8.encode_injective hdecode ▸ kept_drive hc

theorem length_parts_foldl_le (hne : ∀ s ∈ segments, s ≠ "") (path : List (List Char)) :
    (parts (segments.foldl (addSegment scheme) path)).length ≤
      (parts path).length + segments.length := by
  induction segments generalizing path with
  | nil => exact Nat.le_refl _
  | cons s segments ih =>
    obtain ⟨hsne, hsegmentsne⟩ := List.forall_mem_cons.mp hne
    have hstep : (parts (addSegment scheme path s)).length ≤ (parts path).length + 1 := by
      rcases addSegment_cases hsne scheme path with hle | ⟨p, hp, -⟩
      · omega
      · rw [hp, List.length_append, List.length_singleton]
    have hrest := ih hsegmentsne (addSegment scheme path s)
    rw [List.foldl_cons, List.length_cons]
    omega

/-- A path that is longer by as many segments as were added has them at its end, and those that can
be read back are ones that stay what they are. -/
theorem exists_parts_of_length (hne : ∀ s ∈ segments, s ≠ "") (path : List (List Char))
    (h : (parts (segments.foldl (addSegment scheme) path)).length =
      (parts path).length + segments.length) :
    ∃ ps, parts (segments.foldl (addSegment scheme) path) = parts path ++ ps ∧
      List.Forall₂ (fun s p => decode p = Text.Utf8.encode s → Kept s) segments ps := by
  induction segments generalizing path with
  | nil => exact ⟨[], by simp, .nil⟩
  | cons s segments ih =>
    obtain ⟨hsne, hsegmentsne⟩ := List.forall_mem_cons.mp hne
    rw [List.foldl_cons, List.length_cons] at h
    have hrest : (parts (segments.foldl (addSegment scheme) (addSegment scheme path s))).length ≤
        (parts (addSegment scheme path s)).length + segments.length :=
      length_parts_foldl_le hsegmentsne (addSegment scheme path s)
    rcases addSegment_cases hsne scheme path with hle | ⟨p, hp, hkept⟩
    · omega
    · have hlength : (parts (addSegment scheme path s)).length = (parts path).length + 1 := by
        rw [hp, List.length_append, List.length_singleton]
      obtain ⟨ps, hps, hall⟩ := ih hsegmentsne (addSegment scheme path s) (by omega)
      refine ⟨p :: ps, ?_, .cons hkept hall⟩
      rw [List.foldl_cons, hps, hp, List.append_assoc, List.singleton_append]

variable {u : Url}

theorem parts_join_of_kept (hne : ∀ s ∈ segments, s ≠ "") (h : ∀ s ∈ segments, Kept s)
    (hdrive : isFile u.scheme = true → parts u.front = [] → ∀ s ∈ segments.head?, ¬Barred s) :
    parts (u.join segments).path = parts u.front ++ segments.map (written u.scheme) := by
  rw [← parts_dropEmptyEnd] at hdrive ⊢
  exact parts_foldl_addSegment hne h hdrive

theorem Fits.rooted_join (hne : ∀ s ∈ segments, s ≠ "") (h : u.Fits segments) :
    rooted (u.join segments).path = rooted (u.front ++ segments.map (written u.scheme)) := by
  cases segments with
  | nil =>
    change rooted (dropEmptyEnd u.path) = rooted (u.front ++ [])
    rw [List.append_nil, ← rooted_parts, parts_dropEmptyEnd, rooted_parts]
  | cons s segments =>
    have hfront : parts u.front = u.front := parts_of_ne (h.slash (by simp))
    rw [← rooted_parts, parts_join_of_kept hne h.kept (hfront.symm ▸ h.drive), hfront]

theorem Barred.written_eq (h : Barred s) (scheme : List Char) :
    ∃ c, c.isAlpha = true ∧ s.toList = [c, '|'] ∧ written scheme s = [c, '|'] := by
  obtain ⟨c, hc, hs⟩ := h
  have hplain : ∀ x ∈ segmentReserved scheme, x.isAlpha = false ∧ x ≠ '|' := by
    have hall : (pathReserved ++ ['/', '%'] ++ ['\\']).all
        (fun x => !x.isAlpha && x != '|') = true := rfl
    intro x hx
    have hplain := List.all_eq_true.mp hall x
    rw [Bool.and_eq_true, Bool.not_eq_true', bne_iff_ne] at hplain
    refine hplain ?_
    rw [segmentReserved, List.mem_append] at hx
    refine List.mem_append.mpr (hx.imp id fun hx => ?_)
    split at hx
    · exact hx
    · cases hx
  have hcReserved : c ∉ segmentReserved scheme := fun hmem => by
    rw [(hplain c hmem).1] at hc
    cases hc
  obtain ⟨hcontrol, hascii⟩ := isControl_of_isAlpha hc
  refine ⟨c, hc, hs, ?_⟩
  rw [written, hs, encode_eq_self]
  intro x hx
  rcases List.mem_cons.mp hx with rfl | hx
  · exact ⟨hcontrol, hascii, hcReserved⟩
  · obtain rfl := List.mem_singleton.mp hx
    exact ⟨by decide, by decide, fun hmem => (hplain _ hmem).2 rfl⟩

/-- The bare path of a file writes a drive with a colon. -/
theorem Barred.not_holds_join (hs : Barred s) (hfile : isFile u.scheme = true)
    (hfront : u.front = [])
    (hne : ∀ t ∈ s :: segments, t ≠ "") (hkept : ∀ t ∈ s :: segments, Kept t)
    {ps : List (List Char)} (hpath : parts (u.join (s :: segments)).path = ps) :
    ¬List.Forall₂ Holds ps (s :: segments) := by
  obtain ⟨c, hc, hchars, hwritten⟩ := hs.written_eq u.scheme
  have hbare : parts (dropEmptyEnd u.path) = [] := by rw [parts_dropEmptyEnd, hfront, parts_nil]
  have hadd : addSegment u.scheme (dropEmptyEnd u.path) s = [[c, ':']] := by
    have hdrive : isDrive [c, '|'] = true := by simp [isDrive, hc]
    rw [(hkept s (by simp)).addSegment_eq_extend, hbare, hwritten, extend, hfile, hdrive]
    rfl
  have hdrives : parts [[c, ':']] = [[c, ':']] := parts_concat_of_ne (by simp) []
  rw [join, List.foldl_cons, hadd, parts_foldl_addSegment (List.forall_mem_cons.mp hne).2
    (List.forall_mem_cons.mp hkept).2 (by simp [hdrives]), hdrives] at hpath
  subst hpath
  rintro (_ | ⟨hholds, -⟩)
  have hcolon := hholds.1
  rw [decode_drive hc (.inl rfl)] at hcolon
  have hsame := congrArg String.toList (Text.Utf8.encode_injective hcolon)
  rw [String.toList_ofList, hchars] at hsame
  exact absurd hsame (by simp)

/-- Segments that the path holds behind those of the address have not taken the place of any. -/
theorem parts_join_of_holds {ps : List (List Char)} (hne : ∀ s ∈ segments, s ≠ "")
    (hsegments : segments ≠ []) (hholds : List.Forall₂ Holds ps segments)
    (hps : rooted (u.join segments).path = rooted (u.front ++ ps)) :
    parts (u.join segments).path = u.front ++ ps ∧ u.front ≠ [[]] := by
  have hlength : ps.length = segments.length := hholds.length_eq
  have hpsne : ps ≠ [] := by
    rintro rfl
    exact hsegments (List.eq_nil_of_length_eq_zero hlength.symm)
  have hlast : (u.front ++ ps).getLast? ≠ some [] := by
    rw [List.getLast?_append_of_ne_nil _ hpsne]
    intro hnil
    obtain ⟨t, ht, hholdsNil⟩ := exists_right_of_mem hholds (List.mem_of_getLast? hnil)
    exact hholdsNil.ne_nil (hne t ht) rfl
  have hparts : parts (u.join segments).path = u.front ++ ps := by
    rw [eq_of_rooted hps (by simp [hpsne]) hlast, parts_of_ne (ne_of_getLast? hlast)]
  have hbound : u.front.length + ps.length ≤ (parts u.front).length + segments.length := by
    rw [← List.length_append, ← hparts, ← parts_dropEmptyEnd]
    exact length_parts_foldl_le hne _
  refine ⟨hparts, fun hslash => ?_⟩
  rw [hslash, hlength] at hbound
  exact absurd hbound (by simp [parts])

theorem kept_of_parts_join {ps : List (List Char)} (hne : ∀ s ∈ segments, s ≠ "")
    (hholds : List.Forall₂ Holds ps segments) (hslash : u.front ≠ [[]])
    (hparts : parts (u.join segments).path = u.front ++ ps) : ∀ s ∈ segments, Kept s := by
  have hfront : parts (dropEmptyEnd u.path) = u.front := by
    rw [parts_dropEmptyEnd, parts_of_ne hslash]
  have hcount : (parts (u.join segments).path).length =
      (parts (dropEmptyEnd u.path)).length + segments.length := by
    rw [hparts, hfront, List.length_append, hholds.length_eq]
  obtain ⟨qs, hqs, hread⟩ := exists_parts_of_length hne (dropEmptyEnd u.path) hcount
  obtain rfl : qs = ps := by
    rw [hfront] at hqs
    exact List.append_cancel_left (hqs.symm.trans hparts)
  intro s hs
  obtain ⟨i, hi, rfl⟩ := List.mem_iff_getElem.mp hs
  have hi' : i < qs.length := hholds.length_eq ▸ hi
  exact hread.get hi hi' (hholds.get hi' hi).1

/-- The path holds the segments that were added just if the address takes these as they are. -/
theorem exists_rooted_join_iff (hne : ∀ s ∈ segments, s ≠ "") (u : Url) :
    (∃ ps, rooted (u.join segments).path = rooted (u.front ++ ps) ∧
      List.Forall₂ Holds ps segments) ↔ u.Fits segments := by
  constructor
  · rintro ⟨ps, hps, hholds⟩
    cases segments with
    | nil => exact ⟨by simp, fun h => absurd rfl h, by simp⟩
    | cons s segments =>
      obtain ⟨hparts, hslash⟩ := parts_join_of_holds hne (List.cons_ne_nil _ _) hholds hps
      have hkept := kept_of_parts_join hne hholds hslash hparts
      refine ⟨hkept, fun _ => hslash, fun hfile hnil t ht hbarred => ?_⟩
      obtain rfl : s = t := Option.some.inj ht
      rw [hnil, List.nil_append] at hparts
      exact hbarred.not_holds_join hfile hnil hne hkept hparts hholds
  · intro h
    refine ⟨_, h.rooted_join hne, ?_⟩
    rw [List.forall₂_map_left_iff]
    exact List.forall₂_same.mpr fun s _ => holds_written u.scheme s

theorem target_join (hsegments : segments ≠ []) (hne : ∀ s ∈ segments, s ≠ "")
    (h : ∀ s ∈ segments, Kept s) (hdrive : ∀ s ∈ segments.head?, ¬Barred s) (u : Url) :
    (u.join segments).target = String.ofList
      ((parts u.front ++ segments.map (written u.scheme)).flatMap ('/' :: ·) ++
        (u.query.map ('?' :: ·)).getD []) := by
  have hparts := parts_join_of_kept (u := u) hne h fun _ _ => hdrive
  have hmap : segments.map (written u.scheme) ≠ [] := by simpa using hsegments
  have hpath : (u.join segments).path = parts u.front ++ segments.map (written u.scheme) := by
    rw [← hparts, parts_of_ne]
    intro hslash
    rw [hslash] at hparts
    exact hmap (List.append_eq_nil_iff.mp hparts.symm).2
  have hpathne : parts u.front ++ segments.map (written u.scheme) ≠ [] := by simp [hmap]
  rw [target, hpath, List.isEmpty_eq_false_iff.mpr hpathne]
  rfl

theorem segments_eq_of_target {segments' : List String} (hsegments : segments ≠ [])
    (hsegments' : segments' ≠ []) (hne : ∀ s ∈ segments ++ segments', s ≠ "")
    (h : ∀ s ∈ segments ++ segments', Kept s)
    (hdrive : (∀ s ∈ segments.head?, ¬Barred s) ∧ ∀ s ∈ segments'.head?, ¬Barred s)
    (htarget : (u.join segments).target = (u.join segments').target) : segments = segments' := by
  rw [List.forall_mem_append] at hne h
  rw [target_join hsegments hne.1 h.1 hdrive.1,
    target_join hsegments' hne.2 h.2 hdrive.2] at htarget
  have hchars := String.ofList_injective htarget
  rw [List.append_cancel_right_eq, List.flatMap_append, List.flatMap_append,
    List.append_cancel_left_eq] at hchars
  have hplain : ∀ (ss : List String), ∀ w ∈ ss.map (written u.scheme), '/' ∉ w := by
    intro ss w hw
    obtain ⟨s, -, rfl⟩ := List.mem_map.mp hw
    exact (holds_written u.scheme s).2 '/' (by simp)
  have hwritten : segments.map (written u.scheme) = segments'.map (written u.scheme) := by
    have hsplit := congrArg (Path.splitChars '/') hchars
    rw [Path.splitChars_flatMap (hplain _), Path.splitChars_flatMap (hplain _)] at hsplit
    exact (List.cons.inj hsplit).2
  refine List.map_injective_iff.mpr (fun s t hst => ?_) hwritten
  have hdecode := congrArg decode hst
  rw [decode_written, decode_written] at hdecode
  exact Text.Utf8.encode_injective hdecode

/-- A path that goes on behind another one still does so when a segment is added, whatever it is. -/
theorem prefix_addSegment (h : before <+: path) (hlt : before.length < path.length)
    (scheme : List Char) (s : String) :
    before <+: addSegment scheme path s ∧ before.length < (addSegment scheme path s).length := by
  by_cases hdot : s = "." ∨ s = ".."
  · rw [addSegment, if_pos hdot]
    exact ⟨h, hlt⟩
  have hdrop : before <+: (parts path).dropLast := by
    by_cases hslash : path = [[]]
    · have hnil : before = [] := by
        rw [hslash, List.length_singleton] at hlt
        exact List.eq_nil_of_length_eq_zero (by omega)
      rw [hnil]
      exact List.nil_prefix
    · obtain ⟨rest, rfl⟩ := h
      have hrest : rest ≠ [] := by
        rintro rfl
        simp at hlt
      rw [parts_of_ne hslash, List.dropLast_append_of_ne_nil hrest]
      exact List.prefix_append ..
  have hparts : before <+: parts path := hdrop.trans (List.dropLast_prefix _)
  have hconcat : ∀ {l : List (List Char)} (p : List Char), before <+: l →
      before <+: l ++ [p] ∧ before.length < (l ++ [p]).length := by
    intro l p hl
    have hle := hl.length_le
    refine ⟨hl.trans (List.prefix_append ..), ?_⟩
    rw [List.length_append, List.length_singleton]
    omega
  have hclimb : before <+: climb scheme (parts path) := by
    rcases climb_eq_or scheme (parts path) with hstays | hdrops
    · rw [hstays]
      exact hparts
    · rw [hdrops]
      exact hdrop
  rw [addSegment_eq (not_or.mp hdot)]
  split
  · exact hconcat _ hclimb
  split
  · exact hconcat _ hparts
  · obtain ⟨q, hq, -⟩ := exists_extend scheme (parts path) (stripped scheme s)
    rw [hq]
    exact hconcat _ hparts

/-- No segments lead out of what a first one that stays what it is has been added to. -/
theorem front_prefix_join (hslash : u.front ≠ [[]]) (hs : Kept s) (segments : List String) :
    u.front <+: (u.join (s :: segments)).path := by
  have hfold : ∀ path, u.front <+: path ∧ u.front.length < path.length →
      u.front <+: segments.foldl (addSegment u.scheme) path := by
    induction segments with
    | nil => exact fun _ h => h.1
    | cons t segments ih => exact fun path h => ih _ (prefix_addSegment h.1 h.2 u.scheme t)
  obtain ⟨q, hq, -⟩ := exists_extend u.scheme u.front (written u.scheme s)
  rw [join, List.foldl_cons, hs.addSegment_eq_extend, parts_dropEmptyEnd, parts_of_ne hslash, hq]
  exact hfold _ ⟨List.prefix_append .., by simp⟩

theorem front_prefix_join_singleton (hslash : u.front ≠ [[]])
    (h : 2 < (s.toList.filter fun c => !isLineBreakOrTab c).length) :
    u.front <+: (u.join [s]).path := by
  have hlong : ∀ t : List Char, t = ['.'] ∨ t = ['.', '.'] → stripped u.scheme s ≠ t := by
    intro t ht he
    have hdecode := decode_stripped u.scheme s
    have hplain : decode t = t.flatMap octets := by
      rcases ht with rfl | rfl <;> decide
    rw [he, hplain] at hdecode
    rw [← Text.Utf8.flatMap_octets_injective hdecode] at h
    rcases ht with rfl | rfl <;> simp at h
  have hdots : s ≠ "." ∧ s ≠ ".." := by
    constructor <;> rintro rfl <;> simp [isLineBreakOrTab] at h
  obtain ⟨q, hq, -⟩ := exists_extend u.scheme u.front (stripped u.scheme s)
  rw [join, List.foldl_cons, List.foldl_nil, addSegment_eq hdots, if_neg (hlong _ (.inr rfl)),
    if_neg (hlong _ (.inl rfl)), parts_dropEmptyEnd, parts_of_ne hslash, hq]
  exact List.prefix_append ..

end Url
end Manifest
