/-
# The widths of images

The images of a document are those of its figures, and the width of an image is
the one that its figure asks for, if that is a percentage, or else the width in
the settings. Settings accept percentages from 1 to 100, but one may have a plus
sign; a figure may have any percentage that fits in 32 bits.

Key definitions: `Conversion.Asks`, `Plan.ownWidth?`.
Key theorems: `Conversion.shows_width_iff`, `Plan.signedPercent_width`, `convert_image_widths`.
-/
import QuartoPretext.Proofs.Config.Percentage
import QuartoPretext.Proofs.Document.HeadingLevels
import QuartoPretext.Proofs.Document.Images
import QuartoPretext.Proofs.Document.WarningLines

namespace QuartoPretext

open Markup Text

/-- A figure that the conversion of a document comes to may ask for a width. -/
def Conversion.Asks (set : Setting) (input : Text) (given : Option Text) : Prop :=
  ∃ context taken b s, Comes set input context taken b s ∧ b.figureWidth? = some given

/-- The width that a figure asks for, if it is accepted. -/
def Plan.ownWidth? (given : Option Text) : Option Text := (given.map trim).filter isPercentage

/-- A width that is read in the tag of an image. -/
abbrev Markup.ImageWidth (document v : Text) : Prop := Shows document "image".toList "width".toList v

variable {set : Setting} {ctx : Inline.Context} {t t₀ : Task} {s s' s₀ : Session} {input : Text}

/-! ### The title that is kept -/

namespace Session

theorem openSection_heading {n level : Nat} {id : Option Text} {title : Text} {e : Element}
    (h : s.openSection n level id title e = .ok s') : s'.heading = s.heading := by
  obtain ⟨-, rfl⟩ := openSection_eq_ok_iff.1 h
  rfl

theorem documentHeading_heading {kind : DocumentKind} {n level : Nat} {title : Text} {id : Option Text}
    (h : s.documentHeading ctx kind n level title id = .ok s') :
    s'.heading = s.heading ∨ s'.heading = some ⟨(Inline.transform ctx title).1, title, id⟩ := by
  cases headed_of_documentHeading h with
  | root _ _ => exact .inr rfl
  | second _ _ ho | inner _ _ ho =>
    have hs := openSection_heading ho
    exact .inl hs
  | alert _ _ _ => exact .inl rfl

/-- The title that is kept is the markup of a text. -/
def Titled (ctx : Inline.Context) (s : Session) : Prop :=
  ∀ h, s.heading = some h → h.xml = (Inline.transform ctx h.text).1

theorem Titled.congr (hs : s.Titled ctx) (h : s'.heading = s.heading) : s'.Titled ctx := by
  unfold Titled
  rwa [h]

theorem Titled.write {kind : DocumentKind} {p : Piece} (hs : s.Titled ctx) (h : s.write ctx kind p = .ok s') :
    s'.Titled ctx := by
  cases p with
  | heading n level title id =>
    rcases documentHeading_heading h with h | h
    · exact hs.congr h
    · intro h' hh
      rw [h] at hh
      cases hh
      rfl
  | _ => exact hs.congr (write_heading (by simp) h)

end Session

theorem Runs.titled (h : Runs set ctx t s s') (hs : s.Titled ctx) : s'.Titled ctx := by
  have hclose (s : Session) (hs : s.Titled ctx) : s.close.Titled ctx := hs.congr (by rw [Session.close])
  exact h.keeps .start (fun _ _ hs => hs.congr rfl) hclose (fun _ _ hs => hs.congr rfl) (fun _ _ _ _ _ hw hs => hs.write hw) hs

/-! ### The tags of images in a document -/

/-- A figure that the conversion of a document comes to has the tag for its image. -/
def Conversion.Draws (set : Setting) (input : Text) (tag : Tag) : Prop :=
  ∃ source given, Asks set input given ∧ tag = Plan.imageTag source (Plan.width set.profile given)

namespace Conversion

theorem draws_of_comes {context : Context} {taken : List Line} {b : Block} {tag : Tag}
    (h : Comes set input context taken b s) (htag : tag ∈ Piece.imagesOf (Plan.ofBlock set context s.exerciseCount b)) : Draws set input tag := by
  obtain ⟨source, himages⟩ := Plan.images_ofBlock set context s.exerciseCount b
  rw [himages, Option.mem_toList, Option.map_eq_some_iff] at htag
  obtain ⟨given, hgiven, rfl⟩ := htag
  exact ⟨source, given, ⟨context, taken, b, s, h, hgiven⟩, rfl⟩

theorem tagsAll_declaration {T : Tag → Prop} : TagsAll (Tag.NamesImage T) declaration := by
  have hline : TagsAll (Tag.NamesImage T) ['\n'] := .of_not_mem (by decide)
  have htag : TagsAll (Tag.NamesImage T) (Mark.startTag "?xml version=\"1.0\" encoding=\"UTF-8\"?".toList) :=
    .single (by unfold Angleless; decide) (.of_not_leading (not_image_of_head (by decide)))
  exact htag.append hline

theorem writes_endTag {T : Tag → Prop} (e : Element) : (Event.endTag e).Writes T := ⟨nofun, nofun⟩

/-- Everything in the body of a document writes the tags of its figures only. -/
theorem writes_body (h : Runs set (contextOf set input) (.lines .document (Line.ofText input)) .start s) {e : Event}
    (he : e ∈ (s.closeTo 0).writer.finish) : e.Writes (Draws set input) := by
  rcases List.mem_append.1 he with he | he
  · rcases Session.mem_events_closeTo he with he | ⟨el, rfl⟩
    · rcases h.mem_events .start he with (he | ⟨el, rfl⟩) | ⟨p, s₁, hr, hwrites⟩
      · cases he
      · exact writes_endTag el
      · refine ⟨fun t ht himage => ?_, ?_⟩
        · obtain ⟨context, taken, b, s₂, hmeets, hmem⟩ := hr.image_meets (hwrites.mem_images ht himage)
          exact draws_of_comes hmeets hmem
        · rintro t xml rfl
          refine (hwrites.imageless ?_).tagsAll _
          rintro tag xml rfl
          exact hr.ready
    · exact writes_endTag el
  · obtain ⟨el, -, rfl⟩ := List.mem_map.1 he
    exact writes_endTag el

theorem writes_events {T : Tag → Prop} (kind : DocumentKind) (rootId : Text) (usesInclusion : Bool) {title : Option Text}
    {body : List Event} (htitle : ∀ xml, title = some xml → Imageless xml) (hbody : ∀ e ∈ body, e.Writes T) :
    ∀ e ∈ events kind rootId title usesInclusion body, e.Writes T := by
  have hroot {as : List (AttributeName × Text)} : (Event.startTag ⟨rootElement kind, as⟩).Writes T := by
    refine ⟨?_, nofun⟩
    rintro t ⟨⟩ himage
    cases kind <;> cases himage
  intro e he
  simp only [events, List.cons_append, List.mem_cons, List.mem_append, List.not_mem_nil, or_false] at he
  rcases he with rfl | (he | he) | rfl
  · exact hroot
  · cases title with
    | none => cases he
    | some xml =>
      obtain rfl := List.mem_singleton.1 he
      refine ⟨?_, ?_⟩
      · rintro t ⟨⟩ himage
        cases himage
      · rintro t xml ⟨⟩
        exact (htitle xml rfl).tagsAll T
  · exact hbody e he
  · exact writes_endTag _

/-- The widths of images in a document are those of the figures that its conversion comes to. -/
theorem shows_width_iff {v : Text}
    (h : convertLines set (contextOf set input) .document (Line.ofText input) .start = .ok s) :
    ImageWidth (ofSession set (contextOf set input) s).xml v ↔
      ∃ given, Asks set input given ∧ v = escapeAttribute (Plan.width set.profile given) := by
  have hrun : Runs set (contextOf set input) (.lines .document (Line.ofText input)) .start s := runs_iff.2 h
  obtain ⟨rootId, title, usesInclusion, htitle, hxml⟩ := xml_ofSession (M := Imageless) set (contextOf set input)
    (fun heading hheading => hrun.titled nofun heading hheading ▸ Inline.imageless_transform _ _)
    (fun text _ => Inline.imageless_transform _ _)
  rw [hxml]
  constructor
  · intro hshows
    have hevents := writes_events set.profile.kind rootId usesInclusion htitle fun e he => writes_body hrun he
    have htags := tagsAll_declaration.append (tagsAll_render hevents 0)
    obtain ⟨t, ⟨source, given, hasks, rfl⟩, -, a, ha, hname, rfl⟩ := htags.of_shows (by decide) hshows
    refine ⟨given, hasks, ?_⟩
    rcases List.mem_cons.1 ha with rfl | ha
    · have hne : "width".toList ≠ AttributeName.source.name.toList := by decide
      exact absurd hname hne
    · obtain rfl := List.mem_singleton.1 ha
      rfl
  · rintro ⟨given, ⟨context, taken, b, s₁, hcomes, hgiven⟩, rfl⟩
    obtain ⟨source, himages⟩ := Plan.images_ofBlock set context s₁.exerciseCount b
    rw [hgiven] at himages
    obtain ⟨e, he, htag⟩ : ∃ e ∈ s.writer.events, e.tag? = some (Plan.imageTag source (Plan.width set.profile given)) :=
      (hrun.image_iff rfl).2 ⟨context, taken, b, s₁, hcomes, himages ▸ List.mem_singleton_self _⟩
    have hbody : e ∈ (s.closeTo 0).writer.finish := List.mem_append_left _ (s.events_subset_closeTo 0 he)
    have hmem : e ∈ events set.profile.kind rootId title usesInclusion (s.closeTo 0).writer.finish :=
      List.mem_append_left _ (List.mem_cons_of_mem _ (List.mem_append_right _ hbody))
    exact (shows_render (a := (.width, Plan.width set.profile given)) hmem htag
      (show _ = [(AttributeName.source, source)] ++ [_] from rfl) 0).append_left _

end Conversion

/-! ### Widths that are percentages -/

namespace Plan

variable {p : Profile} {m : Nat}

/-- A width that is accepted from a figure is a percentage. -/
theorem signedPercent_ownWidth {given : Option Text} {own : Text} (h : ownWidth? given = some own) :
    ∃ n < 0x100000000, SignedPercent n own :=
  isPercentage_iff.1 (Option.filter_eq_some_iff.1 h).2

/-- The width of an image is a percentage, from 1 to 100 if it is that in the settings. -/
theorem signedPercent_width (hone : 1 ≤ m) (hhundred : m ≤ 100) (hm : SignedPercent m p.figureWidth) (given : Option Text) :
    ∃ n < 0x100000000, SignedPercent n (width p given) ∧ (ownWidth? given = none → 1 ≤ n ∧ n ≤ 100) := by
  have hwidth : width p given = (ownWidth? given).getD p.figureWidth := rfl
  rw [hwidth]
  cases hown : ownWidth? given with
  | some own =>
    obtain ⟨n, hn, hpercent⟩ := signedPercent_ownWidth hown
    exact ⟨n, hn, hpercent, nofun⟩
  | none => exact ⟨m, by omega, hm, fun _ => ⟨hone, hhundred⟩⟩

/-- The width of an image is from 1 to 100 if it has no sign and its figure asks for no other number. -/
theorem isWidth_width_iff (hone : 1 ≤ m) (hhundred : m ≤ 100) (hm : SignedPercent m p.figureWidth) (given : Option Text) :
    (width p given).IsWidth ↔ (width p given).head? ≠ some '+' ∧
      ∀ own, ownWidth? given = some own → ∃ n, 1 ≤ n ∧ n ≤ 100 ∧ SignedPercent n own := by
  have hwidth : width p given = (ownWidth? given).getD p.figureWidth := rfl
  rw [hwidth]
  cases hown : ownWidth? given with
  | some own =>
    obtain ⟨n, -, hpercent⟩ := signedPercent_ownWidth hown
    rw [Option.getD_some, hpercent.isWidth_iff]
    refine and_congr_right fun _ => ⟨?_, fun h => ?_⟩
    · rintro ⟨hn, hn'⟩ _ ⟨⟩
      exact ⟨n, hn, hn', hpercent⟩
    · obtain ⟨k, hk, hk', hpercent'⟩ := h own rfl
      rw [hpercent.eq hpercent']
      exact ⟨hk, hk'⟩
  | none =>
    rw [Option.getD_none, hm.isWidth_iff]
    exact and_congr_right fun _ => ⟨fun _ => nofun, fun _ => ⟨hone, hhundred⟩⟩

end Plan

/-! ### A document of one figure -/

theorem Runs.figure (set : Setting) (ctx : Inline.Context) (id : Option Text) (caption source width : Text)
    (alt : Option Text) (s : Session) : ∃ s', Runs set ctx (.pieces [Plan.figure id caption source width alt]) s s' := by
  have himage (s : Session) : ∃ s', Runs set ctx (.piece (Plan.image source width alt)) s s' := by
    cases alt with
    | none => exact ⟨_, .write rfl rfl⟩
    | some text => exact ⟨_, .element (.pieces (.write rfl rfl) .noPieces)⟩
  obtain ⟨s', hs'⟩ := himage _
  exact ⟨_, .pieces (.element (.pieces (.write rfl rfl) (.pieces hs' .noPieces))) .noPieces⟩

/-- A document that is one figure is converted, and the figure asks for its width. -/
theorem Conversion.asks_image (set : Setting) {input caption source : Text} {l : Line} {n : Nat} {attrs : Attributes}
    (hl : Line.ofText input = [l]) (hb : Block.read l [] = .ok (.image n caption source attrs, [])) :
    (∃ s, convertLines set (contextOf set input) .document (Line.ofText input) .start = .ok s) ∧
      Asks set input ((attrs.get? "width".toList).orElse fun _ => attrs.get? "out-width".toList) := by
  have hmeets : Comes set input .document [l] (.image n caption source attrs) .start := by
    rw [Comes, hl]
    exact .intro .start hb
  refine ⟨?_, _, _, _, _, hmeets, rfl⟩
  obtain ⟨s, hs⟩ := Runs.figure set (contextOf set input) attrs.id caption source
    (Plan.width set.profile ((attrs.get? "width".toList).orElse fun _ => attrs.get? "out-width".toList))
    (attrs.get? "fig-alt".toList) { Session.start with line := some n }
  have hrun : Runs set (contextOf set input) (.lines .document [l]) .start s := .lines hb hs .noLines
  rw [hl]
  exact ⟨s, hrun.run_eq⟩

/-- A document is converted with the width of settings that were loaded. The widths of
its images are those of the figures that the conversion comes to; all are percentages,
and the one in the settings is from 1 to 100. So all are numerals from 1 to 100 with a
percent sign, unless one was given with a plus sign, or a figure asks for a number
that is not from 1 to 100. -/
theorem convert_image_widths {w : Workspace} {path : Option Text} {overrides : Option Overrides} {loaded : Config.Loaded}
    {c : Conversion} (hload : ((Config.load path overrides : StateM Workspace _) w).1 = .ok loaded)
    (hprofile : set.profile.figureWidth = loaded.config.figureWidth) (h : convert set input = .ok c) :
    (∀ v, ImageWidth c.xml v ↔ ∃ given, Conversion.Asks set input given ∧ v = Plan.width set.profile given) ∧
    (∀ given, ∃ n < 0x100000000, SignedPercent n (Plan.width set.profile given) ∧
      (Plan.ownWidth? given = none → 1 ≤ n ∧ n ≤ 100)) ∧
    ((∀ v, ImageWidth c.xml v → v.IsWidth) ↔ ∀ given, Conversion.Asks set input given →
      (Plan.width set.profile given).head? ≠ some '+' ∧
      ∀ own, Plan.ownWidth? given = some own → ∃ n, 1 ≤ n ∧ n ≤ 100 ∧ SignedPercent n own) := by
  obtain ⟨m, hone, hhundred, hm⟩ := Config.signedPercent_of_load hload
  rw [← hprofile] at hm
  have hwidth := Plan.signedPercent_width hone hhundred hm
  have hshows : ∀ v, ImageWidth c.xml v ↔ ∃ given, Conversion.Asks set input given ∧ v = Plan.width set.profile given := by
    intro v
    unfold convert at h
    simp only at h
    split at h
    · next s hs =>
      cases h
      refine (Conversion.shows_width_iff hs).trans (exists_congr fun given => and_congr_right fun _ => ?_)
      obtain ⟨n, -, hpercent, -⟩ := hwidth given
      rw [hpercent.escapeAttribute_eq]
    · cases h
  refine ⟨hshows, hwidth, ?_⟩
  simp only [hshows, ← Plan.isWidth_width_iff hone hhundred hm]
  constructor
  · exact fun h given hasks => h _ ⟨given, hasks, rfl⟩
  · rintro h _ ⟨given, hasks, rfl⟩
    exact h given hasks

/-- A figure with the width of a file of settings. -/
theorem convert_image_widths_settings :
    let file : Text := "[output]\nfigure_width = \"60%\"\n".toList
    let w : Workspace := .start (FileTree.empty.add ["qmd2ptx.toml".toList] (some file)) [] []
    let loaded : Config.Loaded := ⟨{ Config.standard with figureWidth := "60%".toList }, some "/qmd2ptx.toml".toList⟩
    let set : Setting := ⟨loaded.config.profile .chapter, none⟩
    let input : Text := "![A](a.png)\n".toList
    ((Config.load none none : StateM Workspace _) w).1 = .ok loaded ∧
      ∃ c, convert set input = .ok c ∧ ImageWidth c.xml "60%".toList := by
  intro file w loaded set input
  have hload : ((Config.load none none : StateM Workspace _) w).1 = .ok loaded := by rfl
  obtain ⟨⟨s, hs⟩, hasks⟩ := Conversion.asks_image set (show Line.ofText input = [⟨1, "![A](a.png)".toList⟩] from rfl)
    (show Block.read ⟨1, "![A](a.png)".toList⟩ [] =
      .ok (.image 1 "A".toList "a.png".toList ⟨none, [], .empty⟩, []) by decide +kernel)
  have hc := Conversion.convert_of_run hs
  obtain ⟨hshows, -, -⟩ := convert_image_widths hload rfl hc
  exact ⟨hload, _, hc, (hshows _).2 ⟨_, hasks, rfl⟩⟩

/-- A figure may have a width of more than 100 percent. -/
theorem convert_image_width_exceeds :
    let set : Setting := ⟨Config.standard.profile .chapter, none⟩
    ∃ c, convert set "![A](a.png)\x7bwidth=200%\x7d\n".toList = .ok c ∧ ImageWidth c.xml "200%".toList ∧
      ¬IsWidth "200%".toList := by
  intro set
  obtain ⟨⟨s, hs⟩, hasks⟩ := Conversion.asks_image set
    (show Line.ofText "![A](a.png)\x7bwidth=200%\x7d\n".toList = [⟨1, "![A](a.png)\x7bwidth=200%\x7d".toList⟩] from rfl)
    (show Block.read ⟨1, "![A](a.png)\x7bwidth=200%\x7d".toList⟩ [] =
      .ok (.image 1 "A".toList "a.png".toList ⟨none, [], ⟨[("width".toList, "200%".toList)]⟩⟩, []) by decide +kernel)
  have hpercent : SignedPercent 200 "200%".toList := .inl ⟨"200".toList, rfl, rfl⟩
  refine ⟨_, Conversion.convert_of_run hs, (Conversion.shows_width_iff hs).2 ⟨_, hasks, by decide⟩, fun h => ?_⟩
  obtain ⟨-, -, hhundred⟩ := hpercent.isWidth_iff.1 h
  exact absurd hhundred (by decide)

end QuartoPretext
