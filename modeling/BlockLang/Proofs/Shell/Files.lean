import BlockLang.Proofs.Fallible
import BlockLang.Shell.Disk

/-! Files that can be relied on: what is read is what is there, and where a write is not refused
it replaces one file and nothing else. A disk is such a way to keep files. A file never stands in
the way of a path that led somewhere before, since only folders are walked through. -/

namespace BlockLang.Shell

/-- Files that can be relied on, whatever they refuse to read or to write. -/
class LawfulFiles (σ : Type) [Files σ] where
  /-- What paths lead to. -/
  Spot : Type
  spot? : σ → String → Option Spot
  node? : σ → Spot → Option Node
  read_stands : ∀ {files : σ} {path text : String}, Files.readText files path = .ok text →
    ∃ spot, spot? files path = some spot ∧ node? files spot = some (.file text.toUTF8)
  write_reads : ∀ {before after : σ} {path text : String},
    Files.writeText before path text = .ok after → Files.readText after path = .ok text
  write_spares : ∀ {before after : σ} {path text : String},
    Files.writeText before path text = .ok after →
      ∀ other, spot? after path ≠ some other → node? after other = node? before other

open LawfulFiles in
/-- The file at `path` holds `text` now, and nothing else has changed. -/
structure Replaced {σ : Type} [Files σ] [LawfulFiles σ] (before after : σ) (path text : String) :
    Prop where
  content : Files.readText after path = .ok text
  only : ∃ spot, spot? after path = some spot ∧ node? after spot = some (.file text.toUTF8) ∧
    ∀ other, other ≠ spot → node? after other = node? before other

/-- A file that was written is there, and all else is as it was. -/
theorem replaced_of_write {σ : Type} [Files σ] [LawfulFiles σ] {before after : σ}
    {path text : String} (h : Files.writeText before path text = .ok after) :
    Replaced before after path text := by
  have hcontent := LawfulFiles.write_reads h
  obtain ⟨spot, hspot, hnode⟩ := LawfulFiles.read_stands hcontent
  refine ⟨hcontent, spot, hspot, hnode, ?_⟩
  intro other hother
  apply LawfulFiles.write_spares h
  rw [hspot]
  exact fun hsame => hother (Option.some.inj hsame).symm

namespace Disk

variable {disk before after : Disk} {path : String} {route : Route}

/-- The path leads here, through folders all the way. -/
def Leads (disk : Disk) (path : String) (route : Route) : Prop :=
  ∃ start steps, parts path = .ok (start, steps) ∧ disk.walk start steps = .ok route

/-- Where the path leads. -/
def spot? (disk : Disk) (path : String) : Option Route :=
  match parts path with
  | .ok (start, steps) => (disk.walk start steps).toOption
  | .error _ => none

theorem spot?_eq_some : disk.spot? path = some route ↔ disk.Leads path route := by
  unfold spot? Leads
  constructor
  · intro h
    split at h
    · next start steps hparts =>
      exact ⟨start, steps, hparts, Except.toOption_eq_some.1 h⟩
    · cases h
  · rintro ⟨start, steps, hparts, hwalk⟩
    rw [hparts]
    exact Except.toOption_eq_some.2 hwalk

theorem lookup_filter_ne {entries : List (Route × Node)} {other : Route} (h : other ≠ route) :
    (entries.filter fun entry => entry.1 != route).lookup other = entries.lookup other := by
  induction entries with
  | nil => rfl
  | cons entry rest ih =>
    obtain ⟨found, node⟩ := entry
    by_cases hfound : found = route
    · have hother : (other == found) = false := beq_false_of_ne (hfound ▸ h)
      rw [List.filter_cons_of_neg (by simpa using hfound), ih, List.lookup_cons, hother]
    · rw [List.filter_cons_of_pos (by simpa using hfound), List.lookup_cons, List.lookup_cons, ih]

/-- Only what was no folder is ever put on a disk. -/
theorem node?_put (h : disk.node? route ≠ some .folder) (node : Node) (other : Route) :
    (disk.put route node).node? other = if other = route then some node else disk.node? other := by
  by_cases hother : other = route
  · subst hother
    have hfree : ¬(other.all (· == "..") || other == ["/"]) = true := by
      intro hfixed
      exact h (if_pos hfixed)
    rw [node?, if_neg hfree, if_pos rfl, put, List.lookup_cons_self]
  · rw [if_neg hother]
    unfold node? put
    rw [List.lookup_cons, beq_false_of_ne hother, lookup_filter_ne hother]

theorem requireFolder_eq_ok : disk.requireFolder route = .ok () ↔ disk.node? route = some .folder := by
  unfold requireFolder
  cases disk.node? route with
  | none => simp
  | some node => cases node <;> simp

/-- The same folders make for the same ways. -/
theorem walk_of_folders (h : ∀ route, before.node? route = some .folder →
      after.node? route = some .folder) {start : Route} {steps : List String}
    (hwalk : before.walk start steps = .ok route) : after.walk start steps = .ok route := by
  induction steps generalizing start with
  | nil => exact hwalk
  | cons part rest ih =>
    obtain ⟨_, hfolder, hrest⟩ := Except.exists_of_bind_eq_ok hwalk
    have hfolder' := requireFolder_eq_ok.2 (h start (requireFolder_eq_ok.1 hfolder))
    rw [walk, hfolder']
    exact ih hrest

theorem walk_concat {start parent : Route} {steps : List String}
    (hwalk : disk.walk start steps = .ok parent) (hfolder : disk.requireFolder parent = .ok ())
    (name : String) :
    disk.walk start (steps ++ [name]) = .ok (follow parent name) := by
  induction steps generalizing start with
  | nil =>
    obtain rfl := Except.ok.inj hwalk
    rw [List.nil_append, walk, hfolder]
    rfl
  | cons part rest ih =>
    obtain ⟨_, hstart, hrest⟩ := Except.exists_of_bind_eq_ok hwalk
    rw [List.cons_append, walk, hstart]
    exact ih hrest

theorem Leads.read {bytes : ByteArray} (h : disk.Leads path route)
    (hnode : disk.node? route = some (.file bytes)) : disk.read path = .ok bytes := by
  obtain ⟨start, steps, hparts, hwalk⟩ := h
  unfold Disk.read
  rw [hparts]
  change (disk.walk start steps >>= _) = _
  rw [hwalk]
  dsimp only [bind, Except.bind]
  rw [hnode]
  rfl

/-- A path that no slash ends has a name at its end. -/
theorem eq_concat_of_named {steps : List String} {name : String}
    (hlength : steps.length = (steps.reverse.dropWhile (· == "")).reverse.length)
    (hlast : (steps.reverse.dropWhile (· == "")).reverse.getLast? = some name) :
    name ≠ "" ∧ steps = (steps.reverse.dropWhile (· == "")).reverse.dropLast ++ [name] := by
  have hall : steps.reverse.dropWhile (· == "") = steps.reverse :=
    (List.dropWhile_suffix _).eq_of_length (by simpa using hlength.symm)
  have hnamed := List.head?_dropWhile_not (· == "") steps.reverse
  rw [hall, List.reverse_reverse] at hlast
  rw [hall, List.head?_reverse, hlast] at hnamed
  rw [hall, List.reverse_reverse]
  refine ⟨by simpa using hnamed, ?_⟩
  obtain ⟨front, rfl⟩ := List.getLast?_eq_some_iff.1 hlast
  rw [List.dropLast_concat]

theorem follow_name {parent : Route} {name : String} (hempty : name ≠ "") (hdot : name ≠ ".")
    (hdots : name ≠ "..") : follow parent name = parent ++ [name] := by
  simp [follow, hempty, hdot, hdots]

/-- A file that was written is there, and all else is as it was. -/
theorem exists_of_write {bytes : ByteArray} (h : before.write path bytes = .ok after) :
    ∃ route, after.Leads path route ∧ after.node? route = some (.file bytes) ∧
      ∀ other, other ≠ route → after.node? other = before.node? other := by
  obtain ⟨⟨start, steps⟩, hparts, h⟩ := Except.exists_of_bind_eq_ok h
  obtain ⟨parent, hwalk, h⟩ := Except.exists_of_bind_eq_ok h
  obtain ⟨_, hfolder, h⟩ := Except.exists_of_bind_eq_ok h
  split at h
  · cases h
  next name hname =>
  split at h
  · cases h
  next hplain =>
  obtain ⟨hdot, hplain⟩ := not_or.1 hplain
  obtain ⟨hdots, hlength⟩ := not_or.1 hplain
  obtain ⟨hempty, hsteps⟩ := eq_concat_of_named (Decidable.not_not.1 hlength) hname
  have hput : before.node? (parent ++ [name]) ≠ some .folder ∧
      before.put (parent ++ [name]) (.file bytes) = after := by
    split at h
    · cases h
    next hnode => exact ⟨hnode, Except.ok.inj h⟩
  obtain ⟨hnode, rfl⟩ := hput
  have hafter := node?_put hnode (.file bytes)
  have hfolders : ∀ route, before.node? route = some .folder →
      (before.put (parent ++ [name]) (.file bytes)).node? route = some .folder := by
    intro route hroute
    have hother : route ≠ parent ++ [name] := by
      rintro rfl
      exact hnode hroute
    rw [hafter, if_neg hother]
    exact hroute
  have hleads : (before.put (parent ++ [name]) (.file bytes)).Leads path (parent ++ [name]) := by
    have hthere := walk_concat hwalk hfolder name
    rw [← hsteps, follow_name hempty hdot hdots] at hthere
    exact ⟨start, steps, hparts, walk_of_folders hfolders hthere⟩
  refine ⟨_, hleads, by rw [hafter, if_pos rfl], ?_⟩
  intro other hother
  rw [hafter, if_neg hother]

theorem exists_leads_of_read {bytes : ByteArray} (h : disk.read path = .ok bytes) :
    ∃ route, disk.Leads path route ∧ disk.node? route = some (.file bytes) := by
  obtain ⟨⟨start, steps⟩, hparts, h⟩ := Except.exists_of_bind_eq_ok h
  obtain ⟨route, hwalk, h⟩ := Except.exists_of_bind_eq_ok h
  refine ⟨route, ⟨start, steps, hparts, hwalk⟩, ?_⟩
  split at h
  · next hnode => rw [hnode, Except.ok.inj h]
  · cases h
  · cases h

theorem readText_eq_ok {text : String} :
    disk.readText path = .ok text ↔ disk.read path = .ok text.toUTF8 := by
  unfold readText
  constructor
  · intro h
    obtain ⟨bytes, hread, h⟩ := Except.exists_of_bind_eq_ok h
    unfold String.fromUTF8? at h
    split at h
    · next htext =>
      split at htext
      · rw [hread, ← Except.ok.inj h, ← Option.some.inj htext]
        rfl
      · cases htext
    · cases h
  · intro hread
    rw [hread]
    dsimp only [bind, Except.bind]
    have htext : String.fromUTF8? text.toUTF8 = some text := dif_pos text.isValidUTF8
    rw [htext]
    rfl

end Disk

instance : LawfulFiles Disk where
  Spot := Route
  spot? := Disk.spot?
  node? := Disk.node?
  read_stands h := by
    obtain ⟨route, hleads, hnode⟩ := Disk.exists_leads_of_read (Disk.readText_eq_ok.1 h)
    exact ⟨route, Disk.spot?_eq_some.2 hleads, hnode⟩
  write_reads h := by
    obtain ⟨route, hleads, hnode, -⟩ := Disk.exists_of_write h
    exact Disk.readText_eq_ok.2 (hleads.read hnode)
  write_spares h other hother := by
    obtain ⟨route, hleads, -, honly⟩ := Disk.exists_of_write h
    apply honly
    rintro rfl
    exact hother (Disk.spot?_eq_some.2 hleads)

end BlockLang.Shell
