import Torrentkino.Lib.PathName
import Torrentkino.Web.Http

/-!
# The files below the home directory

`http_resource` does not let a path pass with `../` in it, so that only the last
component can be `..`.  Such a path leads to a directory, and `http_filename` looks
for the index file in it.  This is outside of the home directory when the path has
no other name.

**Results.**
* `httpFilename_inside_iff`: which URLs lead out of the home directory.
-/

namespace Torrentkino

open Memory CString PathName

/-- Files and directories, and no links. -/
abbrev FileTree := Tree Stat fun stat => stat.kind = .directory

/-- What `conf_init` leaves behind, for a server that runs in the directory
`cwd`. -/
structure HomeServed (tree : FileTree) (cwd : List Bytes) (host : Host) : Prop where
  files : host.files = tree.lookup cwd
  /-- `char home[BUF_SIZE]` -/
  home_length : host.home.length < bufSize
  home_isdir : fileIsdir host.files host.home = true
  file_valid : strIsValidFilename host.file = true

/-- The path of a URL. -/
def urlPath (url : Bytes) : Bytes :=
  cString ((httpUrlDecode url).getD [])

/-- The path is inside of the directory. -/
def Inside (cwd : List Bytes) (home path : Bytes) : Prop :=
  normal cwd home <:+ normal cwd path

instance (cwd : List Bytes) (home path : Bytes) : Decidable (Inside cwd home path) :=
  inferInstanceAs (Decidable (_ <:+ _))

/-! ## Accepted paths -/

theorem httpResource_eq_some {url resource : Bytes} (h : httpResource url = some resource) :
    resource = urlPath url ∧ (∃ r, resource = slash :: r) ∧ ¬ dotdot ++ [slash] <:+: resource := by
  rw [httpResource] at h
  split at h
  · cases h
  rename_i dst hdst
  dsimp only at h
  split at h
  · cases h
  rename_i hhead
  split at h
  · cases h
  rename_i hdots
  split at h
  · cases h
    refine ⟨?_, ?_, fun hmem => hdots (isSome_strstr hmem)⟩
    · rw [urlPath, hdst, Option.getD_some]
    · exact List.head?_eq_some_iff.mp (not_not.mp hhead)
  · cases h

/-- Only the last component can be `..`. -/
theorem dotdot_not_mem
    {r c : Bytes} {front : List Bytes} (hdots : ¬ dotdot ++ [slash] <:+: r)
    (hr : components r = front ++ [c]) : dotdot ∉ front := by
  intro hmem
  obtain ⟨u, v, rfl⟩ := List.append_of_mem hmem
  rw [List.append_assoc, List.cons_append] at hr
  exact hdots (slash_behind (by simp) hr)

theorem slash_not_mem {string : Bytes} (h : strIsValidFilename string = true) :
    slash ∉ string := by
  intro hmem
  have hchar := List.all_eq_true.mp h slash hmem
  exact absurd hchar (by decide)

theorem names_slash (r : Bytes) : names (slash :: r) = names r := by
  have hslash : components (slash :: r) = [] :: components r := components_append_slash [] r
  rw [names, hslash, List.filter_cons_of_neg (by decide)]
  rfl

/-! ## Regular files -/

section Regular

variable {tree : FileTree} {cwd : List Bytes} {path : Bytes}

theorem exists_of_fileIsreg (h : fileIsreg (tree.lookup cwd) path = true) :
    ∃ stat, tree.lookup cwd path = some stat ∧ stat.kind = .regular := by
  simpa only [fileIsreg, Option.any_eq_true, decide_eq_true_eq] using h

theorem exists_of_fileIsdir (h : fileIsdir (tree.lookup cwd) path = true) :
    ∃ stat, tree.lookup cwd path = some stat ∧ stat.kind = .directory := by
  simpa only [fileIsdir, Option.any_eq_true, decide_eq_true_eq] using h

/-- The last component of a regular file is its name. -/
theorem last_of_fileIsreg
    {front : List Bytes} {c : Bytes} (h : fileIsreg (tree.lookup cwd) path = true)
    (hpath : components path = front ++ [c]) : moves c = true ∧ c ≠ dotdot := by
  obtain ⟨stat, hstat, hkind⟩ := exists_of_fileIsreg h
  by_contra hc
  have hdir := Tree.isDir_of_last hstat hpath fun hmoves => by
    by_contra hne
    exact hc ⟨hmoves, hne⟩
  rw [decide_eq_true_eq, hkind] at hdir
  cases hdir

/-- A regular file and a directory are not at the same place. -/
theorem normal_ne
    {home : Bytes} (hreg : fileIsreg (tree.lookup cwd) path = true)
    (hdir : fileIsdir (tree.lookup cwd) home = true) : normal cwd path ≠ normal cwd home := by
  obtain ⟨stat, hstat, hkind⟩ := exists_of_fileIsreg hreg
  obtain ⟨stat', hstat', hkind'⟩ := exists_of_fileIsdir hdir
  intro heq
  have hentry := Tree.entry_normal hstat
  rw [heq, Tree.entry_normal hstat'] at hentry
  cases hentry
  rw [hkind] at hkind'
  cases hkind'

variable {home r : Bytes}

/-- Below the home directory a regular file has no component that is `..`. -/
theorem inside_of_fileIsreg
    (hhome : home ≠ []) (hdots : ¬ dotdot ++ [slash] <:+: r)
    (hreg : fileIsreg (tree.lookup cwd) (home ++ slash :: r) = true) :
    Inside cwd home (home ++ slash :: r) := by
  obtain ⟨front, c, hr⟩ := exists_components_eq r
  have hlast : components (home ++ slash :: r) = (components home ++ front) ++ [c] := by
    rw [components_append_slash, hr, List.append_assoc]
  have hmem : dotdot ∉ components r := by
    rw [hr, List.mem_append, List.mem_singleton, not_or]
    exact ⟨dotdot_not_mem hdots hr, Ne.symm (last_of_fileIsreg hreg hlast).2⟩
  rw [Inside, normal_append_slash hhome, foldl_follow hmem]
  exact List.suffix_append _ _

/-- Where there is a regular file there is a name, even if the path is cut off. -/
theorem names_ne_of_fileIsreg
    {k : Nat} (hreg : fileIsreg (tree.lookup cwd) (home ++ slash :: r.take k) = true) :
    names r ≠ [dotdot] := by
  obtain ⟨front, c, c', hlast, hcut, hmem⟩ := last_of_cut (List.take_prefix k r)
  have hpath : components (home ++ slash :: r.take k) = (components home ++ front) ++ [c] := by
    rw [components_append_slash, hlast, List.append_assoc]
  obtain ⟨hmoves, hne⟩ := last_of_fileIsreg hreg hpath
  intro hnames
  -- The component is `..` or leads nowhere, and so does its start.
  refine hne (eq_dotdot_of_start hcut (fun hmoves' => ?_) hmoves)
  have hname : c' ∈ names r := List.mem_filter.mpr ⟨hmem, hmoves'⟩
  rwa [hnames, List.mem_singleton] at hname

/-- The index file of a directory below the home directory. -/
theorem index_inside_iff
    {file : Bytes} (hdots : ¬ dotdot ++ [slash] <:+: r) (hfile : slash ∉ file)
    (hdir : fileIsdir (tree.lookup cwd) home = true) (hhome : home ≠ [])
    (hreg : fileIsreg (tree.lookup cwd) (home ++ slash :: (r ++ slash :: file)) = true) :
    Inside cwd home (home ++ slash :: (r ++ slash :: file)) ↔
      ¬ (names r = [dotdot] ∧ normal cwd home ≠ []) := by
  have hlast : components (home ++ slash :: (r ++ slash :: file)) =
      (components home ++ components r) ++ [file] := by
    rw [components_append_slash, components_append_slash, components_of_not_mem hfile,
      List.append_assoc]
  obtain ⟨hmoves, hne⟩ := last_of_fileIsreg hreg hlast
  have hnormal : normal cwd (home ++ slash :: (r ++ slash :: file)) =
      file :: (components r).foldl follow (normal cwd home) := by
    rw [normal_append_slash hhome, components_append_slash, components_of_not_mem hfile,
      List.foldl_append, List.foldl_cons, List.foldl_nil, follow_of_moves hmoves hne]
  have hplace := normal_ne hreg hdir
  obtain ⟨front, c, hr⟩ := exists_components_eq r
  have hfront := dotdot_not_mem hdots hr
  rw [hnormal] at hplace
  rw [Inside, hnormal]
  by_cases hc : c = dotdot
  · subst hc
    have hnames : names r = front.filter moves ++ [dotdot] := by
      rw [names, hr, List.filter_append]
      rfl
    have honly : names r = [dotdot] ↔ front.filter moves = [] := by
      rw [hnames, List.append_left_eq_self]
    rw [hr, List.foldl_append, List.foldl_cons, List.foldl_nil, follow_dotdot,
      foldl_follow hfront] at hplace ⊢
    rw [honly]
    exact suffix_climb_iff hplace
  · have hmem : dotdot ∉ components r := by
      rw [hr, List.mem_append, List.mem_singleton, not_or]
      exact ⟨hfront, Ne.symm hc⟩
    refine iff_of_true ?_ fun hclimb => ?_
    · rw [foldl_follow hmem]
      exact (List.suffix_append _ _).trans (List.suffix_cons _ _)
    · have hname : dotdot ∈ names r := by
        rw [hclimb.1]
        exact List.mem_singleton_self _
      exact hmem (List.mem_filter.mp hname).1

end Regular

/-! ## `http_filename` -/

theorem httpFilename_eq_some
    {host : Host} {resource filename : Bytes} (h : httpFilename host resource = some filename) :
    filename = (host.home ++ resource).take bufOff1 ∧ fileIsreg host.files filename = true ∨
      filename = host.home ++ resource ++ slash :: host.file ∧
        fileIsreg host.files filename = true := by
  rw [httpFilename] at h
  dsimp only at h
  split at h
  · cases h
    exact .inl ⟨rfl, ‹_›⟩
  split at h
  · split at h
    · cases h
    split at h
    · cases h
      refine .inr ⟨?_, ‹_›⟩
      rw [List.append_assoc]
      rfl
    · cases h
  · cases h

/-- A path leads out of the home directory when it has no name but a `..`, and the
home directory is not the root. -/
theorem httpFilename_inside_iff
    {tree : FileTree} {cwd : List Bytes} {host : Host} (hserved : HomeServed tree cwd host)
    {url resource filename : Bytes} (hresource : httpResource url = some resource)
    (hfilename : httpFilename host resource = some filename) :
    Inside cwd host.home filename ↔
      ¬ (names (urlPath url) = [dotdot] ∧ normal cwd host.home ≠ []) := by
  obtain ⟨hurl, ⟨r, hr⟩, hdots⟩ := httpResource_eq_some hresource
  rw [← hurl, hr, names_slash]
  subst hr
  have hdots' : ¬ dotdot ++ [slash] <:+: r := fun h =>
    hdots (h.trans (List.suffix_cons _ _).isInfix)
  have hdir := hserved.home_isdir
  have hslash := slash_not_mem hserved.file_valid
  have hsize := hserved.home_length
  rw [hserved.files] at hdir
  have hhome : host.home ≠ [] := by
    intro hnil
    rw [hnil] at hdir
    cases hdir
  rcases httpFilename_eq_some hfilename with ⟨rfl, hreg⟩ | ⟨rfl, hreg⟩
  · rw [hserved.files] at hreg
    obtain ⟨k, hk⟩ : ∃ k, bufOff1 = host.home.length + k :=
      ⟨bufOff1 - host.home.length, by rw [bufOff1, bufSize] at *; omega⟩
    have hcut : (host.home ++ slash :: r).take bufOff1 =
        host.home ++ (slash :: r).take k := by
      rw [hk, List.take_length_add_append]
    rw [hcut] at hreg ⊢
    cases k with
    | zero =>
        rw [List.take_zero, List.append_nil] at hreg
        exact absurd rfl (normal_ne hreg hdir)
    | succ k =>
        rw [List.take_succ_cons] at hreg ⊢
        have hdotsCut : ¬ dotdot ++ [slash] <:+: r.take k := fun h =>
          hdots' (h.trans (List.take_prefix k r).isInfix)
        exact iff_of_true (inside_of_fileIsreg hhome hdotsCut hreg)
          fun h => names_ne_of_fileIsreg hreg h.1
  · rw [hserved.files] at hreg
    have hpath : host.home ++ slash :: r ++ slash :: host.file =
        host.home ++ slash :: (r ++ slash :: host.file) := by
      rw [List.append_assoc, List.cons_append]
    rw [hpath] at hreg ⊢
    exact index_inside_iff hdots' hslash hdir hhome hreg

/-! ## The parent of the home directory -/

/-- A directory, or a file without content. -/
def emptyStat (kind : FileKind) : Stat where
  kind := kind
  content := []
  mtime := 0
  size_lt := Stat.size_nil

/-- The directory `/www` and two index files, of which one is in `/`. -/
def indexTree : FileTree where
  entry dir :=
    if dir = [] ∨ dir = [cstr "www"] then some (emptyStat .directory)
    else if dir = [cstr "index.html"] ∨ dir = [cstr "index.html", cstr "www"] then
      some (emptyStat .regular)
    else none
  root := ⟨emptyStat .directory, rfl, rfl⟩
  parent := by
    intro c dir a h
    refine ⟨emptyStat .directory, if_pos ?_, rfl⟩
    split at h
    · simp_all
    split at h
    · rename_i hindex
      simp only [List.cons.injEq] at hindex
      exact hindex.imp And.right And.right
    · cases h

def indexHost : Host where
  home := cstr "/www"
  file := cstr "index.html"
  files := indexTree.lookup []
  magic := fun _ => none
  now := 0

theorem served_indexHost : HomeServed indexTree [] indexHost where
  files := rfl
  home_length := by decide
  home_isdir := by decide +kernel
  file_valid := by decide +kernel

theorem httpFilename_inside_iff_index :
    Inside [] indexHost.home (cstr "/www//index.html") ↔
      ¬ (names (urlPath (cstr "/")) = [dotdot] ∧ normal [] indexHost.home ≠ []) :=
  @httpFilename_inside_iff indexTree [] indexHost served_indexHost _ (cstr "/") _ (by decide +kernel)
    (by decide +kernel)

/-- The index file of `/` is sent for the path `/..`. -/
theorem httpFilename_inside_fails :
    ¬ ∀ (tree : FileTree) (cwd : List Bytes) (host : Host), HomeServed tree cwd host →
      ∀ url resource filename, httpResource url = some resource →
        httpFilename host resource = some filename → Inside cwd host.home filename := by
  intro h
  have hinside := h indexTree [] indexHost served_indexHost (cstr "/..") (cstr "/..")
    (cstr "/www/../index.html") (by decide +kernel) (by decide +kernel)
  exact absurd hinside (by decide +kernel)

end Torrentkino
