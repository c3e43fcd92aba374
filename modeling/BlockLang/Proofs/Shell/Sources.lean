import BlockLang.Proofs.Shell.Commands

/-! Where a run leaves its source alone. Without an output of its own, a run writes to the source's
path with another extension, and this is another file unless the source has that extension. -/

namespace BlockLang.Shell

/-- The last part of a path. -/
def lastName (path : String) : List Char :=
  ((trimBackwards path.toList.reverse).takeWhile (· != '/')).reverse

/-- What follows the last dot of a name. A dot in front is part of the name. -/
def extensionOf? (name : List Char) : Option (List Char) :=
  let tail := (name.reverse.takeWhile (· != '.')).reverse
  if name.length ≤ tail.length + 1 ∨ name = ['.', '.'] then none else some tail

/-- The extension of a path's last part. -/
def extension? (path : String) : Option String :=
  (extensionOf? (lastName path)).map String.ofList

/-- A name that stands for neither the folder it is in nor the one above. -/
structure Plain (name : List Char) : Prop where
  inside : '/' ∉ name
  nonempty : name ≠ []
  notDot : name ≠ ['.']
  notDots : name ≠ ['.', '.']

/-- A name with another extension. -/
def renamed (name extension : List Char) : List Char :=
  stem name ++ '.' :: if stem name = ['.'] then [] else extension

/-- A name has a dot that is not in front, or none. -/
theorem dot_cases (name : List Char) :
    '.' ∉ name.tail ∨ ∃ front tail, name = front ++ '.' :: tail ∧ front ≠ [] ∧ '.' ∉ tail := by
  by_cases hdot : '.' ∈ name.tail
  · obtain ⟨later, sooner, hsplit, hlast⟩ :=
      List.eq_append_cons_of_mem (List.mem_reverse.2 hdot)
    obtain ⟨first, rest, rfl⟩ := List.exists_cons_of_ne_nil (l := name) (by rintro rfl; cases hdot)
    have hrest : rest = sooner.reverse ++ '.' :: later.reverse := by
      have hreverse := congrArg List.reverse hsplit
      simpa using hreverse
    exact .inr ⟨first :: sooner.reverse, later.reverse, by simp [hrest], by simp,
      by simpa using hlast⟩
  · exact .inl hdot

theorem forall_bne_of_notMem {mark : Char} {chars : List Char} (h : mark ∉ chars) :
    ∀ char ∈ chars, (char != mark) = true := by
  intro char hchar
  rw [bne_iff_ne]
  rintro rfl
  exact h hchar

/-- Up to the first character of a kind stands what holds none of them. -/
theorem takeWhile_before {mark : Char} {front : List Char} (h : mark ∉ front) (rest : List Char) :
    (front ++ mark :: rest).takeWhile (· != mark) = front := by
  rw [List.takeWhile_append_of_pos (forall_bne_of_notMem h), List.takeWhile_cons_of_neg (by simp),
    List.append_nil]

theorem takeWhile_dot {front tail : List Char} (h : '.' ∉ tail) :
    (front ++ '.' :: tail).reverse.takeWhile (· != '.') = tail.reverse := by
  rw [List.reverse_append, List.reverse_cons, List.append_assoc]
  exact takeWhile_before (by simpa using h) _

theorem length_takeWhile_no_dot {name : List Char} (h : '.' ∉ name.tail) :
    name.length ≤ (name.reverse.takeWhile (· != '.')).length + 1 := by
  cases name with
  | nil => exact Nat.zero_le _
  | cons first rest =>
    have hrest : '.' ∉ rest.reverse := fun hmem => h (List.mem_reverse.1 hmem)
    have hfree := forall_bne_of_notMem hrest
    rw [List.reverse_cons, List.takeWhile_append_of_pos hfree, List.length_append,
      List.length_reverse, List.length_cons]
    omega

theorem stem_of_dot {front tail : List Char} (hfront : front ≠ []) (htail : '.' ∉ tail) :
    stem (front ++ '.' :: tail) = front := by
  have hlength : (front ++ '.' :: tail).length - tail.reverse.length - 1 = front.length := by
    simp only [List.length_append, List.length_cons, List.length_reverse]
    omega
  have hshorter : tail.reverse.length ≠ (front ++ '.' :: tail).length := by
    simp only [List.length_append, List.length_cons, List.length_reverse]
    omega
  simp only [stem, takeWhile_dot htail, hlength, List.take_left]
  rw [if_neg (not_or.2 ⟨hshorter, hfront⟩)]

theorem stem_of_no_dot {name : List Char} (h : '.' ∉ name.tail) : stem name = name := by
  have hlength := length_takeWhile_no_dot h
  have hfront : name.length - (name.reverse.takeWhile (· != '.')).length - 1 = 0 := by omega
  simp [stem, hfront]

theorem extensionOf?_of_dot {front tail : List Char} (hfront : front ≠ []) (htail : '.' ∉ tail)
    (hplain : Plain (front ++ '.' :: tail)) : extensionOf? (front ++ '.' :: tail) = some tail := by
  have hlonger : ¬(front ++ '.' :: tail).length ≤ tail.length + 1 := by
    have hpositive := List.length_pos_iff.2 hfront
    simp only [List.length_append, List.length_cons]
    omega
  simp only [extensionOf?, takeWhile_dot htail, List.reverse_reverse]
  rw [if_neg (not_or.2 ⟨hlonger, hplain.notDots⟩)]

theorem extensionOf?_of_no_dot {name : List Char} (h : '.' ∉ name.tail) :
    extensionOf? name = none := by
  unfold extensionOf?
  refine if_pos (.inl ?_)
  rw [List.length_reverse]
  exact length_takeWhile_no_dot h

/-- Only a name that has the extension already keeps it. -/
theorem renamed_eq_self_iff {name extension : List Char} (hname : Plain name)
    (hrenamed : Plain (renamed name extension)) :
    renamed name extension = name ↔ extensionOf? name = some extension := by
  rcases dot_cases name with hdot | ⟨front, tail, rfl, hfront, htail⟩
  · rw [extensionOf?_of_no_dot hdot]
    refine iff_of_false ?_ nofun
    rw [renamed, stem_of_no_dot hdot]
    intro hsame
    have hlength := congrArg List.length hsame
    simp at hlength
  · have hlone : front ≠ ['.'] := by
      rintro rfl
      apply hrenamed.notDots
      rw [renamed, stem_of_dot hfront htail, if_pos rfl]
      rfl
    rw [extensionOf?_of_dot hfront htail hname, renamed, stem_of_dot hfront htail, if_neg hlone,
      List.append_cancel_left_eq, List.cons_inj_right, Option.some_inj, eq_comm]

/-- What stands in front of the name in a path: nothing, or all up to a slash. -/
def IsFolder (folder : List Char) : Prop := folder = [] ∨ ∃ front, folder = front ++ ['/']

theorem exists_folder (path : String) :
    ∃ folder name, path = String.ofList (folder ++ name) ∧ IsFolder folder ∧ '/' ∉ name := by
  by_cases hslash : '/' ∈ path.toList
  · obtain ⟨later, sooner, hsplit, hlast⟩ :=
      List.eq_append_cons_of_mem (List.mem_reverse.2 hslash)
    refine ⟨sooner.reverse ++ ['/'], later.reverse, ?_, .inr ⟨_, rfl⟩, by simpa using hlast⟩
    have hreverse := congrArg List.reverse hsplit
    rw [← String.ofList_toList (s := path)]
    congr 1
    simpa using hreverse
  · exact ⟨[], path.toList, by simp, .inl rfl, hslash⟩

/-- Where the paths into a folder start, and their parts in front of the name. -/
structure Paths (folder : List Char) (start : Route) (steps : List String) : Prop where
  top : start = [] ∨ start = ["/"]
  parts : ∀ name, '/' ∉ name → folder ++ name ≠ [] →
    Disk.parts (String.ofList (folder ++ name)) = .ok (start, steps ++ [String.ofList name])

theorem exists_paths {folder : List Char} (h : IsFolder folder) :
    ∃ start steps, Paths folder start steps := by
  rcases h with rfl | ⟨front, rfl⟩
  · refine ⟨[], [], .inl rfl, fun name hslash hname => ?_⟩
    have hhead : name.head? ≠ some '/' := fun hhead => hslash (List.mem_of_head? hhead)
    rw [List.nil_append] at hname
    simp [Disk.parts, Disk.segments, hname, hhead, List.splitOn_eq_singleton hslash]
  · refine ⟨if (front ++ ['/']).head? = some '/' then ["/"] else [],
      (front.splitOn '/').map String.ofList, ?_, fun name hslash _ => ?_⟩
    · split
      · exact .inr rfl
      · exact .inl rfl
    · have hhead : (front ++ '/' :: name).head? = (front ++ ['/']).head? := by
        cases front <;> rfl
      simp [Disk.parts, Disk.segments, hhead, List.splitOn_append_cons_self,
        List.splitOn_eq_singleton hslash]

theorem trimBackwards_name {folder name : List Char} (h : Plain name) :
    trimBackwards (folder ++ name).reverse = (folder ++ name).reverse := by
  obtain ⟨front, last, rfl⟩ : ∃ front last, name = front ++ [last] :=
    ⟨_, _, (List.dropLast_concat_getLast h.nonempty).symm⟩
  have hlast : last ≠ '/' := by
    rintro rfl
    exact h.inside (by simp)
  -- A dot at the end is cut off only where a slash stands before it.
  have hfront : ∀ rest, (front.reverse ++ folder.reverse) = '/' :: rest → last ≠ '.' := by
    rintro rest hrest rfl
    cases hreverse : front.reverse with
    | nil => exact h.notDot (by simp [List.reverse_eq_nil_iff.1 hreverse])
    | cons first others =>
      rw [hreverse] at hrest
      obtain rfl := (List.cons.inj hrest).1
      have hmem : '/' ∈ front.reverse := by simp [hreverse]
      exact h.inside (List.mem_append_left _ (List.mem_reverse.1 hmem))
  rw [List.reverse_append, List.reverse_append, List.reverse_singleton, List.singleton_append,
    List.cons_append]
  unfold trimBackwards
  split
  · next heq => exact (hlast (List.cons.inj heq).1).elim
  · next rest heq => exact (hfront rest (List.cons.inj heq).2 (List.cons.inj heq).1).elim
  · rfl

theorem takeWhile_name {folder name : List Char} (hfolder : IsFolder folder) (h : Plain name) :
    (folder ++ name).reverse.takeWhile (· != '/') = name.reverse := by
  have hfree : '/' ∉ name.reverse := fun hmem => h.inside (List.mem_reverse.1 hmem)
  rcases hfolder with rfl | ⟨front, rfl⟩
  · have hall : (name.reverse ++ []).takeWhile (· != '/') = name.reverse ++ [] :=
      List.takeWhile_append_of_pos (forall_bne_of_notMem hfree)
    simpa using hall
  · rw [List.reverse_append, List.reverse_append, List.reverse_singleton, List.singleton_append]
    exact takeWhile_before hfree _

theorem lastName_eq {folder name : List Char} (hfolder : IsFolder folder) (h : Plain name) :
    lastName (String.ofList (folder ++ name)) = name := by
  rw [lastName, String.toList_ofList, trimBackwards_name h, takeWhile_name hfolder h,
    List.reverse_reverse]

/-- Only the name changes with the extension. -/
theorem withExtension_eq {folder name : List Char} (hfolder : IsFolder folder) (h : Plain name)
    (extension : String) : withExtension (String.ofList (folder ++ name)) extension =
      String.ofList (folder ++ renamed name extension.toList) := by
  have hnamed : ¬(name = [] ∨ name = ['.'] ∨ name = ['.', '.']) := by
    simp [h.nonempty, h.notDot, h.notDots]
  have htake : (folder ++ name).take ((folder ++ name).length - name.length) = folder := by
    rw [List.length_append, Nat.add_sub_cancel, List.take_left]
  simp only [withExtension, String.toList_ofList, trimBackwards_name h, List.reverse_reverse,
    takeWhile_name hfolder h, if_neg hnamed, htake]
  apply String.toList_inj.1
  unfold renamed
  split <;> simp

namespace Disk

variable {disk before after : Disk} {start route parent : Route} {steps : List String}
  {name : String}

/-- All that lies above the route are folders. -/
def Clear (disk : Disk) (route : Route) : Prop :=
  ∀ above, above <+: route → above ≠ route → disk.node? above = some .folder

theorem clear_nil : disk.Clear [] :=
  fun _ habove hother => (hother (List.prefix_nil.1 habove)).elim

theorem Clear.concat (h : disk.Clear route) (hfolder : disk.node? route = some .folder)
    (name : String) : disk.Clear (route ++ [name]) := by
  intro above habove hother
  rcases List.prefix_concat_iff.1 habove with rfl | habove
  · exact (hother rfl).elim
  · by_cases hsame : above = route
    · rw [hsame]
      exact hfolder
    · exact h above habove hsame

theorem Clear.dropLast (h : disk.Clear route) : disk.Clear route.dropLast := by
  intro above habove hother
  refine h above (habove.trans (List.dropLast_prefix route)) ?_
  rintro rfl
  exact hother (habove.eq_of_length_le (by simp))

theorem Clear.follow (h : disk.Clear route) (hfolder : disk.node? route = some .folder)
    (part : String) : disk.Clear (follow route part) := by
  unfold Disk.follow
  split
  · exact h
  · split
    · split
      · exact h.concat hfolder _
      · split
        · exact h
        · exact h.dropLast
    · exact h.concat hfolder _

theorem Clear.walk (h : disk.Clear start) (hwalk : disk.walk start steps = .ok route) :
    disk.Clear route := by
  induction steps generalizing start with
  | nil =>
    cases hwalk
    exact h
  | cons part rest ih =>
    obtain ⟨_, hfolder, hrest⟩ := Except.exists_of_bind_eq_ok hwalk
    exact ih (h.follow (requireFolder_eq_ok.1 hfolder) part) hrest

/-- The way up from a folder leads to a folder. -/
theorem Clear.up (h : disk.Clear route) (hfolder : disk.node? route = some .folder) :
    disk.node? (Disk.follow route "..") = some .folder := by
  unfold Disk.follow
  rw [if_neg (by decide), if_pos rfl]
  split
  · next hall => exact if_pos (by simp at hall ⊢; exact .inl hall)
  · next hall =>
    split
    · exact hfolder
    · apply h _ (List.dropLast_prefix route)
      intro hsame
      have hlength := congrArg List.length hsame
      rw [List.length_dropLast] at hlength
      have hempty : route = [] := List.eq_nil_of_length_eq_zero (by omega)
      exact hall (by simp [hempty])

theorem exists_of_walk_concat (h : disk.walk start (steps ++ [name]) = .ok route) :
    ∃ parent, disk.walk start steps = .ok parent ∧ disk.node? parent = some .folder ∧
      route = follow parent name := by
  induction steps generalizing start with
  | nil =>
    obtain ⟨_, hfolder, hlast⟩ := Except.exists_of_bind_eq_ok h
    exact ⟨start, rfl, requireFolder_eq_ok.1 hfolder, (Except.ok.inj hlast).symm⟩
  | cons part rest ih =>
    obtain ⟨_, hfolder, hrest⟩ := Except.exists_of_bind_eq_ok h
    obtain ⟨parent, hparent, hnode, hroute⟩ := ih hrest
    refine ⟨parent, ?_, hnode, hroute⟩
    rw [Disk.walk, hfolder]
    exact hparent

/-- A way to a file ends in a name. -/
theorem exists_of_walk_file {bytes : ByteArray} (hstart : start = [] ∨ start = ["/"])
    (hwalk : disk.walk start (steps ++ [name]) = .ok route)
    (hnode : disk.node? route = some (.file bytes)) :
    ∃ parent, disk.walk start steps = .ok parent ∧ disk.node? parent = some .folder ∧
      route = parent ++ [name] ∧ name ≠ "" ∧ name ≠ "." ∧ name ≠ ".." := by
  obtain ⟨parent, hparent, hfolder, rfl⟩ := exists_of_walk_concat hwalk
  have hclear : disk.Clear start := by
    rcases hstart with rfl | rfl
    · exact clear_nil
    · exact clear_nil.concat rfl "/"
  have hempty : name ≠ "" := by
    rintro rfl
    cases hnode.symm.trans hfolder
  have hdot : name ≠ "." := by
    rintro rfl
    cases hnode.symm.trans hfolder
  have hdots : name ≠ ".." := by
    rintro rfl
    cases hnode.symm.trans ((hclear.walk hparent).up hfolder)
  exact ⟨parent, hparent, hfolder, follow_name hempty hdot hdots, hempty, hdot, hdots⟩

end Disk

theorem plain_of_name {name : List Char} (hslash : '/' ∉ name) (hempty : String.ofList name ≠ "")
    (hdot : String.ofList name ≠ ".") (hdots : String.ofList name ≠ "..") : Plain name := by
  refine ⟨hslash, ?_, ?_, ?_⟩
  · rintro rfl
    exact hempty rfl
  · rintro rfl
    exact hdot rfl
  · rintro rfl
    exact hdots rfl

theorem slash_notMem_renamed {name extension : List Char} (hname : '/' ∉ name)
    (hextension : '/' ∉ extension) : '/' ∉ renamed name extension := by
  have hstem : '/' ∉ stem name := by
    rcases dot_cases name with hdot | ⟨front, tail, rfl, hfront, htail⟩
    · rw [stem_of_no_dot hdot]
      exact hname
    · rw [stem_of_dot hfront htail]
      exact fun hmem => hname (List.mem_append_left _ hmem)
  unfold renamed
  split <;> simp [hstem, hextension]

namespace Disk

variable {disk : Disk} {folder name : List Char} {start parent route other : Route}
  {steps : List String} {bytes : ByteArray}

theorem Leads.unique {path : String} (h : disk.Leads path route) (h' : disk.Leads path other) :
    route = other := by
  obtain ⟨start, steps, hparts, hwalk⟩ := h
  obtain ⟨start', steps', hparts', hwalk'⟩ := h'
  cases hparts.symm.trans hparts'
  exact Except.ok.inj (hwalk.symm.trans hwalk')

/-- The folder of a file is there, and its name is no way back to a folder. -/
theorem exists_of_read_named (hpaths : Paths folder start steps) (hname : '/' ∉ name)
    (h : disk.read (String.ofList (folder ++ name)) = .ok bytes) :
    Plain name ∧ ∃ parent, disk.walk start steps = .ok parent ∧
      disk.node? parent = some .folder ∧
      disk.node? (parent ++ [String.ofList name]) = some (.file bytes) := by
  obtain ⟨route, ⟨start', steps', hparts, hwalk⟩, hnode⟩ := exists_leads_of_read h
  have hnonempty : folder ++ name ≠ [] := by
    intro hempty
    rw [hempty] at hparts
    cases hparts
  cases (hpaths.parts name hname hnonempty).symm.trans hparts
  obtain ⟨parent, hparent, hfolder, rfl, hempty, hdot, hdots⟩ :=
    exists_of_walk_file hpaths.top hwalk hnode
  exact ⟨plain_of_name hname hempty hdot hdots, parent, hparent, hfolder, hnode⟩

theorem leads_named (hpaths : Paths folder start steps) (hname : Plain name)
    (hwalk : disk.walk start steps = .ok parent) (hfolder : disk.node? parent = some .folder) :
    disk.Leads (String.ofList (folder ++ name)) (parent ++ [String.ofList name]) := by
  have hnonempty : folder ++ name ≠ [] := by simp [hname.nonempty]
  refine ⟨start, _, hpaths.parts name hname.inside hnonempty, ?_⟩
  rw [walk_concat hwalk (requireFolder_eq_ok.2 hfolder), follow_name]
  · simpa using hname.nonempty
  · intro hdot
    exact hname.notDot (by simpa using congrArg String.toList hdot)
  · intro hdots
    exact hname.notDots (by simpa using congrArg String.toList hdots)

variable {before after : Disk} {path text : String}

theorem exists_of_replaced (h : Replaced before after path text) :
    ∃ route, after.Leads path route ∧ after.node? route = some (.file text.toUTF8) ∧
      ∀ other, other ≠ route → after.node? other = before.node? other := by
  obtain ⟨route, hroute, hnode, honly⟩ := h.only
  exact ⟨route, spot?_eq_some.1 hroute, hnode, honly⟩

/-- Every way there is after a file was written was there before. -/
theorem walk_of_replaced (h : Replaced before after path text) {start route : Route}
    {steps : List String} (hwalk : after.walk start steps = .ok route) :
    before.walk start steps = .ok route := by
  obtain ⟨found, -, hfile, honly⟩ := exists_of_replaced h
  refine walk_of_folders (fun other hfolder => ?_) hwalk
  have hother : other ≠ found := by
    rintro rfl
    cases hfile.symm.trans hfolder
  rw [← honly other hother]
  exact hfolder

/-- Once code has been written under the extension, the source is what it was, unless it has that
extension; for the code was written to the source itself exactly if it has. -/
theorem spares_of_replaced {input extension : String} {bytes : ByteArray}
    (hslash : '/' ∉ extension.toList) (hread : before.read input = .ok bytes)
    (h : Replaced before after (withExtension input extension) text) :
    ((∃ route, before.Leads input route ∧ before.Leads (withExtension input extension) route) ↔
      extension? input = some extension) ∧
    (extension? input ≠ some extension → after.read input = .ok bytes) := by
  obtain ⟨folder, name, rfl, hfolder, hname⟩ := exists_folder input
  obtain ⟨start, steps, hpaths⟩ := exists_paths hfolder
  obtain ⟨hplain, parent, hwalk, hparent, hfile⟩ := exists_of_read_named hpaths hname hread
  rw [withExtension_eq hfolder hplain] at h ⊢
  obtain ⟨hplain', parent', hwalk', hparent', -⟩ := exists_of_read_named hpaths
    (slash_notMem_renamed hname hslash) (readText_eq_ok.1 h.content)
  -- Writing a file moves no folder, so both names are in the same one.
  obtain rfl : parent = parent' := Except.ok.inj (hwalk.symm.trans (walk_of_replaced h hwalk'))
  have hinput := leads_named hpaths hplain hwalk hparent
  have houtput := leads_named hpaths hplain' hwalk hparent
  have hsame : parent ++ [String.ofList (renamed name extension.toList)] =
      parent ++ [String.ofList name] ↔
        extension? (String.ofList (folder ++ name)) = some extension := by
    have hroutes : parent ++ [String.ofList (renamed name extension.toList)] =
        parent ++ [String.ofList name] ↔ renamed name extension.toList = name := by
      simp [String.ofList_inj]
    rw [hroutes, renamed_eq_self_iff hplain hplain', extension?, lastName_eq hfolder hplain,
      Option.map_eq_some_iff]
    refine ⟨fun htail => ⟨_, htail, String.ofList_toList⟩, ?_⟩
    rintro ⟨tail, htail, rfl⟩
    rw [htail, String.toList_ofList]
  refine ⟨⟨?_, ?_⟩, ?_⟩
  · rintro ⟨route, hroute, hroute'⟩
    exact hsame.1 ((houtput.unique hroute').trans (hroute.unique hinput))
  · intro hextension
    rw [hsame.2 hextension] at houtput
    exact ⟨_, hinput, houtput⟩
  · intro hextension
    obtain ⟨route, hleads, -, honly⟩ := exists_of_replaced h
    obtain rfl := hleads.unique (leads_named hpaths hplain' hwalk' hparent')
    have hother := honly _ fun hname => hextension (hsame.1 hname.symm)
    refine (leads_named hpaths hplain hwalk' hparent').read ?_
    rw [hother]
    exact hfile

end Disk

/-- Without an output of its own, a run that succeeds writes to its source exactly if the source's
extension is that of listings, and leaves it as it was if not. -/
theorem run_spares_source (disk : Disk) {arguments : List String} {verbosity : Nat} {input : String}
    {scrutiny : Scrutiny}
    (h : Request.ofArguments arguments = .run verbosity (.compile input none scrutiny))
    (hexit : (run arguments disk).1.exit = 0) :
    ((∃ route, disk.Leads input route ∧ disk.Leads (withExtension input "ll") route) ↔
      extension? input = some "ll") ∧
    (extension? input ≠ some "ll" →
      ∃ bytes, disk.read input = .ok bytes ∧ (run arguments disk).2.read input = .ok bytes) := by
  rw [run_eq h] at hexit ⊢
  rcases Command.run_cases (.compile input none scrutiny) verbosity disk with
    ⟨stdout, stderr, after, hrun, hdone⟩ | ⟨error, source?, -, hrun⟩
  · rw [hrun]
    cases hdone with
    | saved hread hcode htext hfile hreplaced =>
      have hbytes := Disk.readText_eq_ok.1 hread
      obtain ⟨hsame, hspared⟩ := Disk.spares_of_replaced (by decide) hbytes hreplaced
      exact ⟨hsame, fun hextension => ⟨_, hbytes, hspared hextension⟩⟩
  · rw [hrun] at hexit
    cases hexit

/-- A source in a folder, with a name of several dots. -/
def nestedSource : Disk := Disk.makeFile {} "src/.unit.ll.nst" "PROCEDURE P; BEGIN END.".toUTF8

theorem nestedSource_spared :
    (run ["compile", "./src//.unit.ll.nst"] nestedSource).1.exit = 0 ∧
    ∃ bytes, nestedSource.read "./src//.unit.ll.nst" = .ok bytes ∧
      (run ["compile", "./src//.unit.ll.nst"] nestedSource).2.read "./src//.unit.ll.nst" =
        .ok bytes := by
  have hrequest : Request.ofArguments ["compile", "./src//.unit.ll.nst"] =
      .run 0 (.compile "./src//.unit.ll.nst" none .outermost) := by decide +kernel
  have hexit : (run ["compile", "./src//.unit.ll.nst"] nestedSource).1.exit = 0 := by
    decide +kernel
  exact ⟨hexit, (run_spares_source nestedSource hrequest hexit).2 (by decide +kernel)⟩

/-- A source that has the extension of listings. -/
def listingSource : Disk := Disk.makeFile {} "unit.ll" "PROCEDURE P; BEGIN END.".toUTF8

theorem listingSource_overwritten :
    Request.ofArguments ["compile", "unit.ll"] = .run 0 (.compile "unit.ll" none .outermost) ∧
    (run ["compile", "unit.ll"] listingSource).1.exit = 0 ∧
    (run ["compile", "unit.ll"] listingSource).2.read "unit.ll" ≠ listingSource.read "unit.ll" := by
  refine ⟨by decide +kernel, by decide +kernel, ?_⟩
  intro hsame
  have hsize := congrArg (fun content => content.toOption.map ByteArray.size) hsame
  revert hsize
  decide +kernel

end BlockLang.Shell
