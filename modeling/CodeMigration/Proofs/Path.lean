import CodeMigration.CommandLine.Disk
import Mathlib.Data.List.Basic

/-!
# Where paths lead

`Path.resolve` follows the components of a path from a location, as if every directory on the way
existed. What a relative path does is the same from everywhere: it leaves a number of directories
and then enters some. `Path.heading` computes both from the path alone.
-/

namespace CodeMigration

namespace Path

variable {path directory name : String} {start : List String}

/-! ### Pieces -/

lemma addChar_append (c : Char) {ps : List (List Char)} (hps : ps ≠ []) (qs : List (List Char)) :
    addChar c (ps ++ qs) = addChar c ps ++ qs := by
  cases ps with
  | nil => exact absurd rfl hps
  | cons p ps =>
    simp only [List.cons_append, addChar]
    split <;> rfl

lemma foldr_addChar_ne_nil (cs : List Char) : cs.foldr addChar [[]] ≠ [] := by
  cases cs with
  | nil => simp
  | cons c cs =>
    rw [List.foldr_cons, addChar.eq_def]
    split <;> split <;> simp

lemma pieces_ne_nil (path : String) : pieces path ≠ [] := by
  simp [pieces, foldr_addChar_ne_nil]

/-- A separator ends a piece. -/
lemma pieces_append (a b : String) : pieces (a ++ "/" ++ b) = pieces a ++ pieces b := by
  have hsplit : ∀ cs ds : List Char, (cs ++ '/' :: ds).foldr addChar [[]] =
      cs.foldr addChar [[]] ++ ds.foldr addChar [[]] := by
    intro cs ds
    induction cs with
    | nil =>
      rw [List.nil_append, List.foldr_cons, addChar.eq_def]
      split
      · next hnil => exact absurd hnil (foldr_addChar_ne_nil ds)
      · next hcons => rw [if_pos rfl]; simp [hcons]
    | cons c cs ih =>
      rw [List.cons_append, List.foldr_cons, ih, addChar_append c (foldr_addChar_ne_nil cs),
        List.foldr_cons]
  have hchars : (a ++ "/" ++ b).toList = a.toList ++ '/' :: b.toList := by simp
  rw [pieces, hchars, hsplit, List.map_append]
  rfl

/-- A text without separators is one piece. -/
lemma pieces_of_not_mem {text : String} (h : '/' ∉ text.toList) : pieces text = [text] := by
  have hone : ∀ cs : List Char, '/' ∉ cs → cs.foldr addChar [[]] = [cs] := by
    intro cs hcs
    induction cs with
    | nil => rfl
    | cons c cs ih =>
      rw [List.mem_cons, not_or] at hcs
      rw [List.foldr_cons, ih hcs.2, addChar, if_neg (Ne.symm hcs.1)]
  rw [pieces, hone _ h, List.map_singleton, String.ofList_toList]

/-- There is no separator in a piece. -/
lemma not_mem_of_mem_pieces {text : String} (h : text ∈ pieces path) : '/' ∉ text.toList := by
  have hfree : ∀ (cs : List Char), ∀ p ∈ cs.foldr addChar [[]], '/' ∉ p := by
    intro cs
    induction cs with
    | nil => simp
    | cons c cs ih =>
      rw [List.foldr_cons, addChar.eq_def]
      split
      · next hnil => exact absurd hnil (foldr_addChar_ne_nil cs)
      · next p ps hcons =>
        rw [hcons] at ih
        split
        · simpa using ih
        · next hc =>
          simp only [List.mem_cons, forall_eq_or_imp] at ih ⊢
          exact ⟨by simpa [Ne.symm hc] using ih.1, ih.2⟩
  obtain ⟨cs, hcs, rfl⟩ := List.mem_map.mp h
  rw [String.toList_ofList]
  exact hfree _ _ hcs

/-- Pieces can be put together and taken apart again. -/
lemma pieces_intercalate {ps : List String} (hne : ps ≠ []) (hps : ∀ p ∈ ps, '/' ∉ p.toList) :
    pieces ("/".intercalate ps) = ps := by
  induction ps with
  | nil => exact absurd rfl hne
  | cons p ps ih =>
    have hp := pieces_of_not_mem (hps p List.mem_cons_self)
    cases ps with
    | nil => rw [String.intercalate_singleton, hp]
    | cons q qs =>
      rw [String.intercalate_cons_cons, pieces_append, hp,
        ih (List.cons_ne_nil q qs) fun r hr => hps r (List.mem_cons_of_mem _ hr)]
      rfl

lemma isAbsolute_iff : isAbsolute path = true ↔ ∃ p ps, pieces path = "" :: p :: ps := by
  rw [isAbsolute, pieces]
  cases hchars : path.toList with
  | nil => simp
  | cons c cs =>
    have hne := foldr_addChar_ne_nil cs
    rw [List.foldr_cons, addChar.eq_def]
    split
    · next hnil => exact absurd hnil hne
    · next p ps hcons => by_cases hc : c = '/' <;> simp [hc]

/-! ### Steps -/

/-- The components of a path that come from its pieces. A root or a dot in front is not among
them. -/
def steps (path : String) : List Component := (pieces path).filterMap component?

lemma steps_append (a b : String) : steps (a ++ "/" ++ b) = steps a ++ steps b := by
  rw [steps, pieces_append, List.filterMap_append]
  rfl

@[simp] lemma steps_empty : steps "" = [] := by decide +kernel

lemma component?_eq_some {text : String} {c : Component} (h : component? text = some c) :
    text ≠ "" ∧ text ≠ "." ∧ (c = .parent ∨ c = .name text ∧ text ≠ "..") := by
  rw [component?] at h
  split at h
  · cases h
  · next hcounts =>
    rw [not_or] at hcounts
    split at h
    · cases h
      exact ⟨hcounts.1, hcounts.2, Or.inl rfl⟩
    · next hparent =>
      cases h
      exact ⟨hcounts.1, hcounts.2, Or.inr ⟨rfl, hparent⟩⟩

/-- A text that is a file name as it stands. -/
structure Plain (name : String) : Prop where
  counts : component? name = some (.name name)
  free : '/' ∉ name.toList

lemma plain_of_mem_steps {text : String} (h : .name text ∈ steps path) : Plain text := by
  obtain ⟨piece, hpiece, hcomponent⟩ := List.mem_filterMap.mp h
  obtain ⟨_, _, hparent | ⟨hname, _⟩⟩ := component?_eq_some hcomponent
  · cases hparent
  · cases hname
    exact ⟨hcomponent, not_mem_of_mem_pieces hpiece⟩

namespace Plain

variable (h : Plain name)
include h

lemma steps_eq : steps name = [.name name] := by
  rw [steps, pieces_of_not_mem h.free, List.filterMap_cons_some h.counts, List.filterMap_nil]

lemma not_isAbsolute : isAbsolute name = false := by
  rw [← Bool.not_eq_true, isAbsolute_iff, pieces_of_not_mem h.free]
  simp

end Plain

lemma fileName?_eq_some_iff : fileName? path = some name ↔
    (steps path).getLast? = some (.name name) := by
  rw [fileName?, components]
  cases hlast : (steps path).getLast? with
  | none =>
    rw [List.getLast?_eq_none_iff] at hlast
    rw [show (pieces path).filterMap component? = [] from hlast, List.append_nil]
    by_cases habsolute : isAbsolute path = true
    · simp [habsolute]
    · by_cases hdot : (pieces path).head? = some "." <;> simp [habsolute, hdot]
  | some c =>
    rw [List.getLast?_append, show ((pieces path).filterMap component?).getLast? = _ from hlast]
    cases c <;> simp

/-! ### Following a path -/

/-- Goes one component further. -/
def enter : List String → Component → List String
  | _, .root => []
  | location, .current => location
  | location, .parent => location.dropLast
  | location, .name text => location ++ [text]

/-- The location that a path leads to. -/
def resolve (start : List String) (path : String) : List String :=
  (components path).foldl enter start

lemma resolve_eq (start : List String) (path : String) :
    resolve start path = (steps path).foldl enter (if isAbsolute path then [] else start) := by
  rw [resolve, components, List.foldl_append]
  by_cases habsolute : isAbsolute path = true
  · rw [if_pos habsolute, if_pos habsolute]
    rfl
  · rw [if_neg habsolute, if_neg habsolute]
    by_cases hdot : ((pieces path).head? == some ".") = true
    · rw [if_pos hdot]
      rfl
    · rw [if_neg hdot]
      rfl

/-- From an absolute path the start does not matter. -/
lemma resolve_of_isAbsolute (h : isAbsolute path = true) (start start' : List String) :
    resolve start path = resolve start' path := by
  rw [resolve_eq, resolve_eq, if_pos h, if_pos h]

/-- A path below a directory is the directory's path and a separator or nothing, and then itself. -/
lemma join_eq (directory : String) (h : isAbsolute path = false) :
    steps (join directory path) = steps directory ++ steps path ∧
      isAbsolute (join directory path) = isAbsolute directory := by
  rw [join, if_neg (by simp [h])]
  by_cases hempty : directory = ""
  · rw [if_pos (Or.inl hempty), hempty, String.empty_append, steps_empty, List.nil_append, h]
    exact ⟨rfl, rfl⟩
  · have hhead : ∀ text : String, (directory ++ text).toList.head? = directory.toList.head? := by
      intro text
      rw [String.toList_append, List.head?_append_of_ne_nil]
      simpa using hempty
    by_cases hlast : directory.toList.getLast? = some '/'
    · rw [if_pos (Or.inr hlast), isAbsolute, hhead]
      refine ⟨?_, rfl⟩
      obtain ⟨cs, hcs⟩ := List.getLast?_eq_some_iff.mp hlast
      have hdirectory : directory = String.ofList cs ++ "/" := by
        rw [← String.toList_inj, hcs]
        simp
      have hsteps := steps_append (String.ofList cs) ""
      rw [String.append_empty, ← hdirectory, steps_empty, List.append_nil] at hsteps
      rw [hsteps, ← steps_append, ← hdirectory]
    · rw [if_neg (by simp [hempty, hlast]), steps_append, isAbsolute, String.append_assoc, hhead]
      exact ⟨rfl, rfl⟩

/-- A relative path below a directory leads where it leads from the directory. -/
lemma resolve_join (h : isAbsolute path = false) :
    resolve start (join directory path) = resolve (resolve start directory) path := by
  obtain ⟨hsteps, habsolute⟩ := join_eq directory h
  rw [resolve_eq, hsteps, habsolute, List.foldl_append, ← resolve_eq, resolve_eq _ path, h]
  rfl

/-! ### Headings -/

/-- What a relative path comes to when its dots are resolved: the number of directories that it
leaves, and the names that it enters from there. -/
structure Heading where
  up : Nat := 0
  down : List String := []
deriving DecidableEq

namespace Heading

/-- Goes one component further. -/
def enter (h : Heading) : Component → Heading
  | .root => h
  | .current => h
  | .parent => if h.down = [] then { h with up := h.up + 1 } else { h with down := h.down.dropLast }
  | .name text => { h with down := h.down ++ [text] }

/-- The location reached from a start. -/
def leadsTo (h : Heading) (start : List String) : List String :=
  start.take (start.length - h.up) ++ h.down

lemma leadsTo_enter (h : Heading) {c : Component} (hc : c ≠ .root) (start : List String) :
    (h.enter c).leadsTo start = Path.enter (h.leadsTo start) c := by
  cases c with
  | root => exact absurd rfl hc
  | current => rfl
  | name text => exact (List.append_assoc _ _ _).symm
  | parent =>
    rw [enter, Path.enter, leadsTo, leadsTo]
    split
    · next hdown =>
      have hless : min (start.length - h.up) start.length = start.length - h.up :=
        Nat.min_eq_left (Nat.sub_le _ _)
      rw [hdown, List.append_nil, List.append_nil, List.dropLast_eq_take, List.take_take,
        List.length_take, hless, Nat.min_eq_left (Nat.sub_le _ _), Nat.sub_sub]
    · next hdown => rw [List.dropLast_append_of_ne_nil hdown]

end Heading

/-- The heading of a path, apart from a root in front. -/
def heading (path : String) : Heading := (steps path).foldl Heading.enter {}

lemma ne_root_of_mem_steps {c : Component} (h : c ∈ steps path) : c ≠ .root := by
  obtain ⟨piece, _, hcomponent⟩ := List.mem_filterMap.mp h
  obtain ⟨_, _, rfl | ⟨rfl, _⟩⟩ := component?_eq_some hcomponent <;> exact Component.noConfusion

/-- A relative path leads where its heading does. -/
lemma resolve_of_relative (h : isAbsolute path = false) (start : List String) :
    resolve start path = (heading path).leadsTo start := by
  have hall : ∀ (cs : List Component) (hd : Heading), (∀ c ∈ cs, c ≠ .root) →
      (cs.foldl Heading.enter hd).leadsTo start = cs.foldl enter (hd.leadsTo start) := by
    intro cs
    induction cs with
    | nil => exact fun _ _ => rfl
    | cons c cs ih =>
      intro hd hcs
      rw [List.foldl_cons, List.foldl_cons, ih _ fun c hc => hcs c (List.mem_cons_of_mem _ hc),
        hd.leadsTo_enter (hcs c List.mem_cons_self)]
  have hstart : ({} : Heading).leadsTo start = start := by simp [Heading.leadsTo]
  rw [resolve_eq, h, heading, hall _ _ fun c hc => ne_root_of_mem_steps hc, hstart]
  rfl

/-- A path that names a file enters at least this name. -/
lemma heading_of_steps {cs : List Component} (h : steps path = cs ++ [.name name]) :
    heading path = (cs.foldl Heading.enter {}).enter (.name name) := by
  rw [heading, h, List.foldl_append]
  rfl

/-! ### Another file name -/

/-- Trailing pieces that do not count are given up; the first piece stays. -/
lemma trimPieces_eq (p : String) (ps : List String) :
    ∃ kept, trimPieces (p :: ps) = p :: kept ∧
      kept.filterMap component? = ps.filterMap component? ∧ (∀ q ∈ kept, q ∈ ps) ∧
      ∀ q ∈ kept.getLast?, q ≠ "" ∧ q ≠ "." := by
  refine ⟨_, rfl, ?_, ?_, ?_⟩
  · have hback : ps.filterMap component? =
        (ps.reverse.takeWhile (fun p => p == "" || p == ".") ++
          ps.reverse.dropWhile (fun p => p == "" || p == ".")).reverse.filterMap component? := by
      rw [List.takeWhile_append_dropWhile, List.reverse_reverse]
    rw [hback, List.reverse_append, List.filterMap_append]
    have hskip : (ps.reverse.takeWhile (fun p => p == "" || p == ".")).reverse.filterMap
        component? = [] := by
      rw [List.filterMap_eq_nil_iff]
      intro q hq
      have htrue := List.all_eq_true.mp List.all_takeWhile q (List.mem_reverse.mp hq)
      rw [component?, if_pos (by simpa using htrue)]
    rw [hskip, List.append_nil]
  · intro q hq
    exact List.mem_reverse.mp ((List.dropWhile_sublist _).subset (List.mem_reverse.mp hq))
  · intro q hq
    rw [List.getLast?_reverse] at hq
    have hfalse := List.head?_dropWhile_not (fun p => p == "" || p == ".") ps.reverse
    rw [Option.mem_def.mp hq] at hfalse
    simpa using hfalse

lemma steps_ofPieces {ps : List String} (hps : ∀ p ∈ ps, '/' ∉ p.toList) :
    steps (ofPieces ps) = ps.filterMap component? := by
  rw [ofPieces]
  split
  · next hroot =>
    rw [hroot]
    decide +kernel
  · by_cases hempty : ps = []
    · rw [hempty]
      exact steps_empty
    · rw [steps, pieces_intercalate hempty hps]

lemma isAbsolute_ofPieces {p : String} {ps : List String} (hps : ∀ q ∈ p :: ps, '/' ∉ q.toList) :
    isAbsolute (ofPieces (p :: ps)) = (p == "") := by
  rw [ofPieces]
  split
  · next hroot =>
    cases hroot
    rfl
  · next hroot =>
    rw [Bool.eq_iff_iff, isAbsolute_iff, pieces_intercalate (List.cons_ne_nil p ps) hps, beq_iff_eq]
    cases ps with
    | nil => simpa using hroot
    | cons q qs => simp

/-- The path above a file has all steps but the last. -/
lemma exists_parent? {cs : List Component} (h : steps path = cs ++ [.name name]) :
    ∃ parent, parent? path = some parent ∧ steps parent = cs ∧
      isAbsolute parent = isAbsolute path := by
  obtain ⟨p, ps, hpieces⟩ := List.exists_cons_of_ne_nil (pieces_ne_nil path)
  have hfree : ∀ q ∈ p :: ps, '/' ∉ q.toList := fun q hq =>
    not_mem_of_mem_pieces (hpieces ▸ hq)
  obtain ⟨kept, htrim, hkept, hsub, hlast⟩ := trimPieces_eq p ps
  have hsteps : (p :: kept).filterMap component? = cs ++ [.name name] := by
    rw [← h, steps, hpieces, List.filterMap_cons, List.filterMap_cons, hkept]
  -- the file name is either the first piece of the path, or the last of the others
  rcases List.eq_nil_or_concat' kept with rfl | ⟨init, q, rfl⟩
  · obtain ⟨rfl, hp⟩ : cs = [] ∧ component? p = some (.name name) := by
      cases hp : component? p <;> cases cs <;> simp_all
    have hne : p ≠ "" := (component?_eq_some hp).1
    have hrelative : isAbsolute path = false := by
      rw [← Bool.not_eq_true, isAbsolute_iff, hpieces]
      simp [hne]
    refine ⟨"", ?_, steps_empty, hrelative.symm⟩
    rw [parent?, hpieces, htrim, if_neg (by simpa using hne)]
    rfl
  · obtain ⟨hcounts, hdot⟩ := hlast q (by simp)
    obtain ⟨c, hc⟩ : ∃ c, component? q = some c := by
      rw [component?, if_neg (by simp [hcounts, hdot])]
      split <;> exact ⟨_, rfl⟩
    have hinit : (p :: init).filterMap component? = cs := by
      rw [← List.cons_append, List.filterMap_append, List.filterMap_cons_some hc,
        List.filterMap_nil] at hsteps
      exact (List.append_inj' hsteps rfl).1
    obtain ⟨kept', htrim', hkept', hsub', _⟩ := trimPieces_eq p init
    have hfree' : ∀ r ∈ p :: kept', '/' ∉ r.toList := by
      intro r hr
      refine hfree r ?_
      rcases List.mem_cons.mp hr with rfl | hr
      · exact List.mem_cons_self
      · exact List.mem_cons_of_mem _ (hsub r (List.mem_append_left _ (hsub' r hr)))
    refine ⟨ofPieces (p :: kept'), ?_, ?_, ?_⟩
    · rw [parent?, hpieces, htrim, if_neg (by simp), ← List.cons_append, List.dropLast_concat,
        htrim']
    · rw [steps_ofPieces hfree', List.filterMap_cons, hkept', ← List.filterMap_cons, hinit]
    · rw [isAbsolute_ofPieces hfree', Bool.eq_iff_iff, isAbsolute_iff, hpieces, beq_iff_eq]
      obtain ⟨r, rs, hps⟩ := List.exists_cons_of_ne_nil (List.ne_nil_of_mem (hsub q (by simp)))
      simp [hps]

/-- Another file name takes the place of the last step. -/
lemma withFileName_eq {cs : List Component} {old : String} (hname : Plain name)
    (h : steps path = cs ++ [.name old]) :
    steps (withFileName path name) = cs ++ [.name name] ∧
      isAbsolute (withFileName path name) = isAbsolute path := by
  have hfile : fileName? path = some old := by
    rw [fileName?_eq_some_iff, h, List.getLast?_concat]
  obtain ⟨parent, hparent, hsteps, habsolute⟩ := exists_parent? h
  obtain ⟨hjoin, habsolute'⟩ := join_eq parent hname.not_isAbsolute
  rw [withFileName, hfile, hparent, Option.isSome_some, if_pos rfl, Option.getD_some, hjoin,
    habsolute', hsteps, habsolute, hname.steps_eq]
  exact ⟨rfl, rfl⟩

end Path

namespace Disk

variable {d : Disk}

lemma follow_eq_ok {ps l l'} (h : d.follow l ps = .ok l') :
    l' = (ps.filterMap Path.component?).foldl Path.enter l := by
  induction ps generalizing l with
  | nil =>
    cases h
    rfl
  | cons p ps ih =>
    rw [follow] at h
    split at h
    · cases h
    · cases h
    · rw [List.filterMap_cons, Path.component?]
      split at h
      · next hskip =>
        rw [if_pos hskip]
        exact ih h
      · next hskip =>
        rw [if_neg hskip]
        split at h
        · next hparent =>
          rw [if_pos hparent]
          exact ih h
        · next hparent =>
          rw [if_neg hparent]
          exact ih h

/-- Where a path is found is where it leads to. -/
lemma locate_eq_ok {path : String} {l : List String} (h : d.locate path = .ok l) :
    l = Path.resolve d.workingDirectory path := by
  rw [locate] at h
  split at h
  · cases h
  · rw [Path.resolve_eq, follow_eq_ok h]
    rfl

end Disk

end CodeMigration
