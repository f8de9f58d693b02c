import Mathlib.Data.List.Basic
import Mathlib.Tactic.TFAE
import UnifyFramework.Text.Lines

/-!
# Module identifiers

`duk__bi_global_resolve_module_id` turns the argument of `require` into the identifier under
which the module is kept. A request that begins with a period is taken relative to the
requiring module, by writing the identifier of that module, `/../` and the request into one
buffer. The loop then goes through the buffer term by term, with the resolved identifier in a
second buffer from which a term `..` takes the last component away again.

In the abstract a request is a path: its terms but the last lead from one directory to the
next, and the last is the name of the module there. The loop computes this path. What it
returns are the identifiers all of whose components are plain names, and these are resolved
to themselves wherever they are requested.

A string is the list of its bytes, a byte being written as the character with its code.
-/

namespace UnifyFramework

namespace Scripts

def moduleIdLimit : ℕ := 256

/-- Where the resolution loop stands: at the top of the loop, at the label `eat_dup_slashes`,
or inside the loop that copies a term. -/
inductive Cursor
  | term
  | slashes
  | name
  deriving DecidableEq, Repr

/-- The output behind its last slash is taken away. The output stands in reverse order. -/
def backtrack (q : List Char) : List Char := q.tail.dropWhile (· ≠ '/')

/-- The resolution loop with the output `q`, in reverse order, and the rest of the input. The
end of the input is the NUL byte behind it. -/
def resolveLoop : Cursor → List Char → List Char → Option (List Char)
  | .name, q, [] => some q.reverse
  | .name, q, c :: p =>
      if c = '/' then resolveLoop .slashes ('/' :: q) p else resolveLoop .name (c :: q) p
  | _, _, [] => none
  | _, q, '.' :: '/' :: p => resolveLoop .slashes q p
  | _, q, '.' :: '.' :: '/' :: p =>
      if q = [] then none else resolveLoop .slashes (backtrack q) p
  | cursor, q, c :: p =>
      if c = '.' then none
      else if c = '/' then if cursor = .slashes then resolveLoop .slashes q p else none
      else resolveLoop .name (c :: q) p

/-- A string as `strlen` and `snprintf` see it. -/
def cString (s : List Char) : List Char := Text.upTo '\x00' s

/-- What is written into `buf_in`. -/
def resolveInput (reqId : List Char) : Option (List Char) → List Char
  | some modId =>
      if reqId.head? = some '.' then modId ++ ['/', '.', '.', '/'] ++ reqId else reqId
  | none => reqId

/-- `duk__bi_global_resolve_module_id`; `none` is the error "cannot resolve module id". -/
def resolveModuleId (reqId : List Char) (modId : Option (List Char)) : Option (List Char) :=
  let input := resolveInput (cString reqId) (modId.map cString)
  if input.length + 1 ≥ moduleIdLimit then none else resolveLoop .term [] input

def join (terms : List (List Char)) : List Char := ['/'].intercalate terms

inductive PathStep
  | here
  | up
  | down (name : List Char)
  deriving DecidableEq, Repr

namespace PathStep

/-- A term that begins with a period is `.` or `..`. -/
def ofTerm : List Char → Option PathStep
  | [] => none
  | c :: rest =>
      if c ≠ '.' then some (.down (c :: rest))
      else if rest = [] then some .here
      else if rest = ['.'] then some .up
      else none

def move (dirs : List (List Char)) : PathStep → Option (List (List Char))
  | .here => some dirs
  | .up => if dirs = [] then none else some dirs.dropLast
  | .down name => some (dirs ++ [name])

end PathStep

/-- The path from a directory: the last term is a name, those before it are directories. -/
def follow (dirs : List (List Char)) : List (List Char) → Option (List (List Char))
  | [] => none
  | [term] =>
      match PathStep.ofTerm term with
      | some (.down name) => some (dirs ++ [name])
      | _ => none
  | term :: next :: terms =>
      ((PathStep.ofTerm term).bind (PathStep.move dirs)).bind fun dirs' =>
        follow dirs' (next :: terms)

def squeeze : List (List Char) → List (List Char)
  | [] => []
  | [term] => [term]
  | term :: next :: terms =>
      if term = [] then squeeze (next :: terms) else term :: squeeze (next :: terms)

def requestTerms (request : List Char) : List (List Char) :=
  match request.splitOn '/' with
  | [] => []
  | term :: terms => term :: squeeze terms

def Plain (term : List Char) : Prop := '/' ∉ term ∧ PathStep.ofTerm term = some (.down term)

instance (term : List Char) : Decidable (Plain term) :=
  inferInstanceAs (Decidable (_ ∧ _))

/-- All components are plain names, and no byte ends the string early. -/
def Canonical (id : List Char) : Prop := '\x00' ∉ id ∧ ∀ term ∈ id.splitOn '/', Plain term

instance (id : List Char) : Decidable (Canonical id) :=
  inferInstanceAs (Decidable (_ ∧ _))

theorem follow_cons {terms : List (List Char)} (hne : terms ≠ []) (dirs : List (List Char))
    (term : List Char) :
    follow dirs (term :: terms) =
      ((PathStep.ofTerm term).bind (PathStep.move dirs)).bind fun dirs' => follow dirs' terms := by
  obtain ⟨next, rest, rfl⟩ := List.exists_cons_of_ne_nil hne
  rfl

theorem squeeze_ne_nil (term : List Char) (terms : List (List Char)) :
    squeeze (term :: terms) ≠ [] := by
  induction terms generalizing term with
  | nil => exact List.cons_ne_nil _ _
  | cons next terms ih =>
      rw [squeeze]
      split_ifs
      · exact ih next
      · exact List.cons_ne_nil _ _

def opened (dirs : List (List Char)) : List Char := (Text.terminated '/' dirs).reverse

theorem opened_concat (dirs : List (List Char)) (name : List Char) :
    opened (dirs ++ [name]) = '/' :: (name.reverse ++ opened dirs) := by
  simp [opened, Text.terminated]

theorem head?_opened (dirs : List (List Char)) : (opened dirs).head? ∈ [none, some '/'] := by
  obtain rfl | ⟨init, name, rfl⟩ := List.eq_nil_or_concat dirs
  · decide
  · rw [List.concat_eq_append, opened_concat]
    simp

theorem backtrack_opened_concat {dirs : List (List Char)} {name : List Char} (hname : '/' ∉ name) :
    backtrack (opened (dirs ++ [name])) = opened dirs := by
  have hall : ∀ c ∈ name.reverse, decide (c ≠ '/') = true := by
    intro c hc
    rw [decide_eq_true_eq]
    rintro rfl
    exact hname (List.mem_reverse.mp hc)
  rw [opened_concat, backtrack, List.tail_cons, List.dropWhile_append_of_pos hall]
  have hhead := head?_opened dirs
  cases hopened : opened dirs with
  | nil => rfl
  | cons c rest =>
      rw [hopened] at hhead
      have hc : c = '/' := by simpa using hhead
      rw [List.dropWhile_cons_of_neg (by simpa using hc)]

theorem reverse_append_opened (dirs : List (List Char)) (name : List Char) :
    (name.reverse ++ opened dirs).reverse = join (dirs ++ [name]) := by
  rw [opened, ← List.reverse_append, List.reverse_reverse, join]
  have h : Text.terminated '/' (dirs ++ [name]) = ['/'].intercalate (dirs ++ [name]) ++ ['/'] :=
    Text.terminated_eq (List.append_ne_nil_of_right_ne_nil _ (List.cons_ne_nil _ _))
  simp only [Text.terminated, List.flatMap_append, List.flatMap_cons, List.flatMap_nil,
    List.append_nil, ← List.append_assoc] at h
  exact List.append_cancel_right h

theorem resolveLoop_name {name : List Char} (hname : '/' ∉ name) (q p : List Char) :
    resolveLoop .name q (name ++ p) = resolveLoop .name (name.reverse ++ q) p := by
  induction name generalizing q with
  | nil => rfl
  | cons c name ih =>
      obtain ⟨hc, hrest⟩ := not_or.mp (mt List.mem_cons.mpr hname)
      rw [List.cons_append, resolveLoop, if_neg (Ne.symm hc), ih hrest, List.reverse_cons,
        List.append_assoc]
      rfl

/-- Outside of a name the loop looks at the next characters as they come, unless they are
one of the terms `.` and `..` with its slash. -/
theorem resolveLoop_cons {cursor : Cursor} (hcursor : cursor ≠ .name) {c : Char} {p : List Char}
    (hhere : ∀ p', c = '.' → p ≠ '/' :: p') (hup : ∀ p', c = '.' → p ≠ '.' :: '/' :: p')
    (q : List Char) :
    resolveLoop cursor q (c :: p) =
      if c = '.' then none
      else if c = '/' then if cursor = .slashes then resolveLoop .slashes q p else none
      else resolveLoop .name (c :: q) p :=
  resolveLoop.eq_6 cursor q c p hhere hup hcursor

theorem resolveLoop_down {cursor : Cursor} (hcursor : cursor ≠ .name) {c : Char} (hdot : c ≠ '.')
    (hslash : c ≠ '/') (q p : List Char) :
    resolveLoop cursor q (c :: p) = resolveLoop .name (c :: q) p := by
  rw [resolveLoop_cons hcursor (fun _ h => absurd h hdot) (fun _ h => absurd h hdot),
    if_neg hdot, if_neg hslash]

theorem ofTerm_dot (rest : List Char) :
    PathStep.ofTerm ('.' :: rest) =
      if rest = [] then some .here else if rest = ['.'] then some .up else none :=
  rfl

theorem eq_of_ofTerm_eq_down {term name : List Char}
    (h : PathStep.ofTerm term = some (.down name)) : name = term := by
  cases term with
  | nil => cases h
  | cons c rest =>
      by_cases hdot : c = '.'
      · subst hdot
        rw [ofTerm_dot] at h
        split_ifs at h <;> cases h
      · rw [PathStep.ofTerm, if_pos hdot] at h
        exact (PathStep.down.inj (Option.some.inj h)).symm

/-- A term that begins with a period and is neither `.` nor `..` is an error, wherever it
ends. -/
theorem resolveLoop_dot_eq_none {cursor : Cursor} (hcursor : cursor ≠ .name) {rest : List Char}
    (hslash : '/' ∉ rest) (hrest : rest ≠ []) (hdots : rest ≠ ['.']) (q p : List Char) :
    resolveLoop cursor q ('.' :: (rest ++ p)) = none := by
  obtain ⟨c, rest, rfl⟩ := List.exists_cons_of_ne_nil hrest
  obtain ⟨hc, htail⟩ := not_or.mp (mt List.mem_cons.mpr hslash)
  rw [resolveLoop_cons hcursor, if_pos rfl]
  · rintro p' - hp
    exact hc (List.cons.inj hp).1.symm
  · rintro p' - hp
    obtain ⟨rfl, hrest'⟩ := List.cons.inj hp
    cases rest with
    | nil => exact hdots rfl
    | cons d rest =>
        obtain ⟨rfl, _⟩ := List.cons.inj hrest'
        exact htail List.mem_cons_self

theorem resolveLoop_step {cursor : Cursor} (hcursor : cursor ≠ .name) {dirs : List (List Char)}
    (hdirs : ∀ dir ∈ dirs, '/' ∉ dir) {term : List Char} (hterm : '/' ∉ term) (hne : term ≠ [])
    (p : List Char) :
    resolveLoop cursor (opened dirs) (term ++ '/' :: p) =
      ((PathStep.ofTerm term).bind (PathStep.move dirs)).bind fun dirs' =>
        resolveLoop .slashes (opened dirs') p := by
  obtain ⟨c, rest, rfl⟩ := List.exists_cons_of_ne_nil hne
  obtain ⟨hc, hrest⟩ := not_or.mp (mt List.mem_cons.mpr hterm)
  by_cases hdot : c = '.'
  · subst hdot
    rw [ofTerm_dot]
    by_cases hnil : rest = []
    · subst hnil
      exact resolveLoop.eq_4 cursor _ _ hcursor
    by_cases hup : rest = ['.']
    · subst hup
      rw [if_neg hnil, if_pos rfl]
      refine (resolveLoop.eq_5 cursor _ _ hcursor).trans ?_
      obtain rfl | ⟨init, dir, rfl⟩ := List.eq_nil_or_concat dirs
      · rfl
      rw [List.concat_eq_append] at hdirs ⊢
      have hdir : '/' ∉ dir := hdirs dir (List.mem_append_right _ List.mem_cons_self)
      have hopened : opened (init ++ [dir]) ≠ [] := by
        rw [opened_concat]
        exact List.cons_ne_nil _ _
      rw [if_neg hopened, backtrack_opened_concat hdir]
      simp [PathStep.move]
    · rw [if_neg hnil, if_neg hup]
      exact resolveLoop_dot_eq_none hcursor hrest hnil hup _ _
  · rw [List.cons_append, resolveLoop_down hcursor hdot (Ne.symm hc), resolveLoop_name hrest,
      resolveLoop, if_pos rfl, PathStep.ofTerm, if_pos hdot, Option.bind_some, PathStep.move,
      Option.bind_some, opened_concat, List.reverse_cons, List.append_assoc]
    rfl

theorem resolveLoop_last {cursor : Cursor} (hcursor : cursor ≠ .name) (dirs : List (List Char))
    {term : List Char} (hterm : '/' ∉ term) :
    resolveLoop cursor (opened dirs) term = (follow dirs [term]).map join := by
  cases term with
  | nil =>
      cases cursor with
      | name => exact absurd rfl hcursor
      | term | slashes => rfl
  | cons c rest =>
      obtain ⟨hc, hrest⟩ := not_or.mp (mt List.mem_cons.mpr hterm)
      by_cases hdot : c = '.'
      · subst hdot
        have hfollow : follow dirs ['.' :: rest] = none := by
          rw [follow, ofTerm_dot]
          split_ifs <;> rfl
        rw [hfollow]
        by_cases hnil : rest = []
        · subst hnil
          cases cursor with
          | name => exact absurd rfl hcursor
          | term | slashes => rfl
        by_cases hup : rest = ['.']
        · subst hup
          cases cursor with
          | name => exact absurd rfl hcursor
          | term | slashes => rfl
        have h := resolveLoop_dot_eq_none hcursor hrest hnil hup (opened dirs) []
        rw [List.append_nil] at h
        exact h
      · have hname := resolveLoop_name hrest (c :: opened dirs) []
        rw [List.append_nil] at hname
        rw [resolveLoop_down hcursor hdot (Ne.symm hc), hname, resolveLoop, follow,
          PathStep.ofTerm, if_pos hdot]
        have h := reverse_append_opened dirs (c :: rest)
        rw [List.reverse_cons, List.append_assoc] at h
        exact congrArg some h

theorem resolveLoop_slash (q p : List Char) :
    resolveLoop .slashes q ('/' :: p) = resolveLoop .slashes q p := by
  have hdot : '/' ≠ '.' := by decide
  rw [resolveLoop_cons (by decide) (fun _ h => absurd h hdot) (fun _ h => absurd h hdot),
    if_neg hdot, if_pos rfl, if_pos rfl]

theorem forall_mem_move {P : List Char → Prop} {dirs dirs' : List (List Char)} {step : PathStep}
    (hdirs : ∀ dir ∈ dirs, P dir) (hname : ∀ name, step = .down name → P name)
    (hmove : step.move dirs = some dirs') : ∀ dir ∈ dirs', P dir := by
  cases step with
  | here =>
      obtain rfl := Option.some.inj hmove
      exact hdirs
  | up =>
      rw [PathStep.move, Option.ite_none_left_eq_some] at hmove
      obtain rfl := Option.some.inj hmove.2
      exact fun dir hdir => hdirs dir ((List.dropLast_sublist dirs).subset hdir)
  | down name =>
      obtain rfl := Option.some.inj hmove
      intro dir hdir
      rcases List.mem_append.mp hdir with hdir | hdir
      · exact hdirs dir hdir
      · rw [List.mem_singleton.mp hdir]
        exact hname name rfl

theorem noSlash_of_move {dirs dirs' : List (List Char)} {term : List Char}
    (hdirs : ∀ dir ∈ dirs, '/' ∉ dir) (hterm : '/' ∉ term)
    (h : (PathStep.ofTerm term).bind (PathStep.move dirs) = some dirs') :
    ∀ dir ∈ dirs', '/' ∉ dir := by
  obtain ⟨step, hstep, hmove⟩ := Option.bind_eq_some_iff.mp h
  refine forall_mem_move hdirs (fun name hdown => ?_) hmove
  rw [hdown] at hstep
  rwa [eq_of_ofTerm_eq_down hstep]

/-- Behind a slash the loop follows the terms of the rest of the input. -/
theorem resolveLoop_slashes {dirs terms : List (List Char)} (hdirs : ∀ dir ∈ dirs, '/' ∉ dir)
    (hterms : ∀ term ∈ terms, '/' ∉ term) (hne : terms ≠ []) :
    resolveLoop .slashes (opened dirs) (join terms) = (follow dirs (squeeze terms)).map join := by
  induction terms generalizing dirs with
  | nil => exact absurd rfl hne
  | cons term terms ih =>
      have hterm := hterms term List.mem_cons_self
      have hrest : ∀ term ∈ terms, '/' ∉ term := fun t ht => hterms t (List.mem_cons_of_mem _ ht)
      cases terms with
      | nil =>
          rw [join, List.intercalate_singleton, squeeze]
          exact resolveLoop_last (by decide) dirs hterm
      | cons next terms =>
          rw [join, List.intercalate_cons_cons, List.append_assoc, squeeze]
          by_cases hnil : term = []
          · subst hnil
            rw [if_pos rfl]
            exact (resolveLoop_slash _ _).trans (ih hdirs hrest (List.cons_ne_nil _ _))
          · rw [if_neg hnil, follow_cons (squeeze_ne_nil _ _), Option.map_bind]
            refine (resolveLoop_step (by decide) hdirs hterm hnil _).trans ?_
            exact Option.bind_congr fun dirs' hdirs' =>
              ih (noSlash_of_move hdirs hterm hdirs') hrest (List.cons_ne_nil _ _)

theorem resolveLoop_eq_follow (input : List Char) :
    resolveLoop .term [] input = (follow [] (requestTerms input)).map join := by
  obtain ⟨term, terms, hsplit⟩ := List.exists_cons_of_ne_nil (List.splitOn_ne_nil '/' input)
  have hslash : ∀ t ∈ term :: terms, '/' ∉ t := by
    rw [← hsplit]
    exact fun t ht => Text.notMem_of_mem_splitOn ht
  have hterm := hslash term List.mem_cons_self
  have hrest : ∀ t ∈ terms, '/' ∉ t := fun t ht => hslash t (List.mem_cons_of_mem _ ht)
  have hinput : input = join (term :: terms) := by
    rw [← hsplit, join, List.intercalate_splitOn]
  rw [requestTerms, hsplit, hinput]
  cases terms with
  | nil =>
      rw [join, List.intercalate_singleton]
      exact resolveLoop_last (by decide) [] hterm
  | cons next terms =>
      rw [join, List.intercalate_cons_cons, List.append_assoc, follow_cons (squeeze_ne_nil _ _),
        Option.map_bind]
      by_cases hnil : term = []
      · subst hnil
        rfl
      · refine (resolveLoop_step (by decide) (List.forall_mem_nil _) hterm hnil _).trans ?_
        exact Option.bind_congr fun dirs hdirs =>
          resolveLoop_slashes (noSlash_of_move (List.forall_mem_nil _) hterm hdirs) hrest
            (List.cons_ne_nil _ _)

theorem Plain.ne_nil {term : List Char} (h : Plain term) : term ≠ [] := by
  rintro rfl
  cases h.2

theorem squeeze_cons {term : List Char} (hterm : term ≠ []) (terms : List (List Char)) :
    squeeze (term :: terms) = term :: squeeze terms := by
  cases terms with
  | nil => rfl
  | cons next terms => rw [squeeze, if_neg hterm]

theorem squeeze_append {terms : List (List Char)} (hterms : ∀ term ∈ terms, term ≠ [])
    (rest : List (List Char)) : squeeze (terms ++ rest) = terms ++ squeeze rest := by
  induction terms with
  | nil => rfl
  | cons term terms ih =>
      rw [List.cons_append, squeeze_cons (hterms term List.mem_cons_self),
        ih fun t ht => hterms t (List.mem_cons_of_mem _ ht), List.cons_append]

theorem squeeze_eq_self {terms : List (List Char)} (hterms : ∀ term ∈ terms, term ≠ []) :
    squeeze terms = terms := by
  have h := squeeze_append hterms []
  rwa [List.append_nil, squeeze, List.append_nil] at h

theorem squeeze_subset (terms : List (List Char)) : squeeze terms ⊆ terms := by
  fun_induction squeeze terms with
  | case1 => exact List.Subset.refl _
  | case2 => exact List.Subset.refl _
  | case3 next terms ih => exact List.subset_cons_of_subset _ ih
  | case4 term next terms _ ih => exact List.cons_subset_cons _ ih

theorem requestTerms_eq {request term : List Char} {terms : List (List Char)}
    (h : request.splitOn '/' = term :: terms) : requestTerms request = term :: squeeze terms := by
  rw [requestTerms, h]

theorem requestTerms_subset (request : List Char) :
    requestTerms request ⊆ request.splitOn '/' := by
  obtain ⟨term, terms, hsplit⟩ := List.exists_cons_of_ne_nil (List.splitOn_ne_nil '/' request)
  rw [requestTerms_eq hsplit, hsplit]
  exact List.cons_subset_cons _ (squeeze_subset terms)

theorem follow_append {dirs terms rest : List (List Char)} (hterms : ∀ term ∈ terms, Plain term)
    (hrest : rest ≠ []) : follow dirs (terms ++ rest) = follow (dirs ++ terms) rest := by
  induction terms generalizing dirs with
  | nil => rw [List.nil_append, List.append_nil]
  | cons term terms ih =>
      have hterm := hterms term List.mem_cons_self
      rw [List.cons_append, follow_cons (List.append_ne_nil_of_right_ne_nil terms hrest), hterm.2,
        Option.bind_some, PathStep.move, Option.bind_some,
        ih fun t ht => hterms t (List.mem_cons_of_mem _ ht), List.append_assoc]
      rfl

theorem follow_of_plain {terms : List (List Char)} (hterms : ∀ term ∈ terms, Plain term)
    (hne : terms ≠ []) (dirs : List (List Char)) : follow dirs terms = some (dirs ++ terms) := by
  obtain rfl | ⟨init, last, rfl⟩ := List.eq_nil_or_concat terms
  · exact absurd rfl hne
  rw [List.concat_eq_append] at hterms ⊢
  have hlast := hterms last (List.mem_append_right _ List.mem_cons_self)
  rw [follow_append (fun t ht => hterms t (List.mem_append_left _ ht)) (List.cons_ne_nil _ _),
    follow, hlast.2, ← List.append_assoc]

/-- What is reached from a directory of plain names is named by plain names. -/
theorem plain_of_follow {dirs terms path : List (List Char)} (hdirs : ∀ dir ∈ dirs, Plain dir)
    (hterms : ∀ term ∈ terms, '/' ∉ term) (h : follow dirs terms = some path) :
    path ≠ [] ∧ ∀ name ∈ path, Plain name := by
  induction terms generalizing dirs with
  | nil => cases h
  | cons term terms ih =>
      have hterm := hterms term List.mem_cons_self
      cases terms with
      | nil =>
          rw [follow] at h
          split at h
          next name hname =>
            obtain rfl := Option.some.inj h
            obtain rfl := eq_of_ofTerm_eq_down hname
            refine ⟨List.append_ne_nil_of_right_ne_nil _ (List.cons_ne_nil _ _), ?_⟩
            intro dir hdir
            rcases List.mem_append.mp hdir with hdir | hdir
            · exact hdirs dir hdir
            · rw [List.mem_singleton.mp hdir]
              exact ⟨hterm, hname⟩
          next => cases h
      | cons next terms =>
          rw [follow_cons (List.cons_ne_nil _ _)] at h
          obtain ⟨dirs', hdirs', hrest⟩ := Option.bind_eq_some_iff.mp h
          obtain ⟨step, hstep, hmove⟩ := Option.bind_eq_some_iff.mp hdirs'
          refine ih (forall_mem_move hdirs (fun name hdown => ?_) hmove)
            (fun t ht => hterms t (List.mem_cons_of_mem _ ht)) hrest
          rw [hdown] at hstep
          obtain rfl := eq_of_ofTerm_eq_down hstep
          exact ⟨hterm, hstep⟩

theorem mem_of_mem_backtrack {q : List Char} {c : Char} (h : c ∈ backtrack q) : c ∈ q :=
  List.mem_of_mem_tail ((List.dropWhile_sublist _).subset h)

theorem length_backtrack_le (q : List Char) : (backtrack q).length ≤ q.length :=
  ((List.dropWhile_sublist _).length_le).trans (List.tail_sublist q).length_le

/-- The output is not longer than the input and has its characters. -/
theorem resolveLoop_bound {cursor : Cursor} {q p r : List Char}
    (h : resolveLoop cursor q p = some r) :
    r.length ≤ q.length + p.length ∧ ∀ c ∈ r, c = '/' ∨ c ∈ q ∨ c ∈ p := by
  fun_induction resolveLoop cursor q p with
  | case1 q =>
      obtain rfl := Option.some.inj h
      exact ⟨by simp, fun c hc => .inr (.inl (List.mem_reverse.mp hc))⟩
  | case7 cursor q p hcursor hq ih =>
      obtain ⟨hlength, hmem⟩ := ih h
      have hle := length_backtrack_le q
      refine ⟨by simp only [List.length_cons]; omega, fun c hc => ?_⟩
      rcases hmem c hc with rfl | hc | hc
      · exact .inl rfl
      · exact .inr (.inl (mem_of_mem_backtrack hc))
      · exact .inr (.inr (List.mem_cons_of_mem _ (List.mem_cons_of_mem _
          (List.mem_cons_of_mem _ hc))))
  | _ => grind

/-- A canonical identifier is the join of its terms, which are plain and not none. -/
theorem canonical_join_iff {terms : List (List Char)} (hterms : ∀ term ∈ terms, '/' ∉ term)
    (hne : terms ≠ []) :
    Canonical (join terms) ↔ '\x00' ∉ join terms ∧ ∀ term ∈ terms, Plain term := by
  rw [Canonical, join, List.splitOn_intercalate '/' hterms hne]

theorem cString_eq_self {s : List Char} (h : '\x00' ∉ s) : cString s = s :=
  Text.upTo_eq_self_iff.mpr h

theorem notMem_cString (s : List Char) : '\x00' ∉ cString s := Text.notMem_upTo _ s

theorem notMem_resolveInput (reqId : List Char) (modId : Option (List Char)) :
    '\x00' ∉ resolveInput (cString reqId) (modId.map cString) := by
  have hreq := notMem_cString reqId
  cases modId with
  | none => exact hreq
  | some modId =>
      have hmod := notMem_cString modId
      rw [Option.map_some, resolveInput]
      split_ifs
      · simp [hreq, hmod]
      · exact hreq

theorem resolveLoop_canonical {input id : List Char} (hinput : '\x00' ∉ input)
    (h : resolveLoop .term [] input = some id) : Canonical id := by
  have hbound := (resolveLoop_bound h).2
  rw [resolveLoop_eq_follow] at h
  obtain ⟨path, hpath, rfl⟩ := Option.map_eq_some_iff.mp h
  have hslash : ∀ term ∈ requestTerms input, '/' ∉ term := fun term ht =>
    Text.notMem_of_mem_splitOn (requestTerms_subset input ht)
  obtain ⟨hne, hplain⟩ := plain_of_follow (List.forall_mem_nil _) hslash hpath
  refine (canonical_join_iff (fun term ht => (hplain term ht).1) hne).mpr ⟨fun hnul => ?_, hplain⟩
  rcases hbound _ hnul with h | h | h
  · exact absurd h (by decide)
  · cases h
  · exact hinput h

theorem requestTerms_of_canonical {id : List Char} (h : Canonical id) :
    requestTerms id = id.splitOn '/' := by
  obtain ⟨term, terms, hsplit⟩ := List.exists_cons_of_ne_nil (List.splitOn_ne_nil '/' id)
  have hplain := h.2
  rw [hsplit] at hplain
  rw [requestTerms_eq hsplit, hsplit,
    squeeze_eq_self fun t ht => (hplain t (List.mem_cons_of_mem _ ht)).ne_nil]

theorem resolveLoop_of_canonical {id : List Char} (h : Canonical id) :
    resolveLoop .term [] id = some id := by
  rw [resolveLoop_eq_follow, requestTerms_of_canonical h,
    follow_of_plain h.2 (List.splitOn_ne_nil _ _), List.nil_append, Option.map_some, join,
    List.intercalate_splitOn]

theorem splitOn_of_dot {reqId : List Char} (h : reqId.head? = some '.') :
    ∃ first terms, reqId.splitOn '/' = ('.' :: first) :: terms := by
  obtain ⟨rest, rfl⟩ := List.head?_eq_some_iff.mp h
  obtain ⟨first, terms, hsplit⟩ := List.exists_cons_of_ne_nil (List.splitOn_ne_nil '/' rest)
  refine ⟨first, terms, ?_⟩
  rw [List.splitOn_cons_eq_if_modifyHead, hsplit]
  rfl

theorem Canonical.head?_ne_dot {id : List Char} (h : Canonical id) : id.head? ≠ some '.' := by
  intro hhead
  obtain ⟨first, terms, hsplit⟩ := splitOn_of_dot hhead
  have hplain := h.2
  rw [hsplit] at hplain
  have hstep := (hplain _ List.mem_cons_self).2
  rw [ofTerm_dot] at hstep
  split_ifs at hstep <;> cases hstep

theorem canonical_of_resolveModuleId {reqId id : List Char} {modId : Option (List Char)}
    (h : resolveModuleId reqId modId = some id) :
    Canonical id ∧ id.length + 1 < moduleIdLimit := by
  rw [resolveModuleId, Option.ite_none_left_eq_some] at h
  obtain ⟨hfits, hloop⟩ := h
  have hlength := (resolveLoop_bound hloop).1
  rw [List.length_nil] at hlength
  exact ⟨resolveLoop_canonical (notMem_resolveInput reqId modId) hloop, by omega⟩

/-- The identifiers that come out of the resolution are the canonical ones that fit into the
buffer, and these are resolved to themselves from every module. -/
theorem resolveModuleId_tfae (id : List Char) :
    List.TFAE [∃ reqId modId, resolveModuleId reqId modId = some id,
      ∀ modId, resolveModuleId id modId = some id,
      Canonical id ∧ id.length + 1 < moduleIdLimit] := by
  tfae_have 1 → 3 := by
    rintro ⟨reqId, modId, h⟩
    exact canonical_of_resolveModuleId h
  tfae_have 3 → 2 := by
    rintro ⟨hcanonical, hlength⟩ modId
    have hinput : resolveInput (cString id) (modId.map cString) = id := by
      rw [cString_eq_self hcanonical.1]
      cases modId with
      | none => rfl
      | some modId => exact if_neg hcanonical.head?_ne_dot
    rw [resolveModuleId, hinput, if_neg (not_le.mpr hlength), resolveLoop_of_canonical hcanonical]
  tfae_have 2 → 1 := fun h => ⟨id, none, h none⟩
  tfae_finish

def directory (modId : List Char) : List (List Char) := (modId.splitOn '/').dropLast

/-- The text that is written for a relative request has the terms of the requiring module, a
term `..` and the terms of the request. -/
theorem requestTerms_relative {modId reqId : List Char} (hmod : Canonical modId)
    (hreq : reqId.head? = some '.') :
    requestTerms (modId ++ ['/', '.', '.', '/'] ++ reqId) =
      modId.splitOn '/' ++ ['.', '.'] :: requestTerms reqId := by
  obtain ⟨term, terms, hsplit⟩ := List.exists_cons_of_ne_nil (List.splitOn_ne_nil '/' modId)
  obtain ⟨first, others, hfirst⟩ := splitOn_of_dot hreq
  have hinput : (modId ++ ['/', '.', '.', '/'] ++ reqId).splitOn '/' =
      term :: (terms ++ ['.', '.'] :: ('.' :: first) :: others) := by
    have hup : ('.' :: '.' :: '/' :: reqId).splitOn '/' = ['.', '.'] :: reqId.splitOn '/' :=
      List.splitOn_append_cons_self ['.', '.'] reqId
    have h : (modId ++ '/' :: '.' :: '.' :: '/' :: reqId).splitOn '/' =
        modId.splitOn '/' ++ ('.' :: '.' :: '/' :: reqId).splitOn '/' :=
      List.splitOn_append_cons_self modId _
    rw [hup, hsplit, hfirst] at h
    rw [List.append_assoc]
    exact h
  have hplain := hmod.2
  rw [hsplit] at hplain
  rw [requestTerms_eq hinput, requestTerms_eq hfirst, hsplit,
    squeeze_append fun t ht => (hplain t (List.mem_cons_of_mem _ ht)).ne_nil,
    squeeze_cons (List.cons_ne_nil _ _), squeeze_cons (List.cons_ne_nil _ _)]
  rfl

theorem follow_relative {modId : List Char} (hmod : Canonical modId) {terms : List (List Char)}
    (hterms : terms ≠ []) :
    follow [] (modId.splitOn '/' ++ ['.', '.'] :: terms) = follow (directory modId) terms := by
  have hup : (PathStep.ofTerm ['.', '.']).bind (PathStep.move (modId.splitOn '/')) =
      some (directory modId) :=
    if_neg (List.splitOn_ne_nil _ _)
  rw [follow_append hmod.2 (List.cons_ne_nil _ _), List.nil_append, follow_cons hterms, hup,
    Option.bind_some]

/-- A request is a path: it leads from the directory of the requiring module if it begins with
a period, and from the root otherwise. -/
theorem resolveModuleId_eq_follow {modId : List Char} (hmod : Canonical modId)
    (reqId : List Char) :
    resolveModuleId reqId (some modId) =
      if (resolveInput (cString reqId) (some modId)).length + 1 < moduleIdLimit then
        (follow (if (cString reqId).head? = some '.' then directory modId else [])
          (requestTerms (cString reqId))).map join
      else none := by
  have hloop : resolveLoop .term [] (resolveInput (cString reqId) (some modId)) =
      (follow (if (cString reqId).head? = some '.' then directory modId else [])
        (requestTerms (cString reqId))).map join := by
    rw [resolveLoop_eq_follow, resolveInput]
    split_ifs with hreq
    · have hne : requestTerms (cString reqId) ≠ [] := by
        obtain ⟨first, terms, hsplit⟩ := splitOn_of_dot hreq
        rw [requestTerms_eq hsplit]
        exact List.cons_ne_nil _ _
      rw [requestTerms_relative hmod hreq, follow_relative hmod hne]
    · rfl
  rw [resolveModuleId, Option.map_some, cString_eq_self hmod.1, hloop]
  simp only [ge_iff_le, ← not_lt, ite_not]

/-- A module in `core/init` that requests `.././view//Model` gets `view/Model`. -/
theorem resolveModuleId_view :
    Canonical "core/init".toList ∧
      resolveModuleId ".././view//Model".toList (some "core/init".toList) =
        some "view/Model".toList :=
  ⟨by decide, (resolveModuleId_eq_follow (by decide) _).trans (by decide)⟩

end Scripts

end UnifyFramework
