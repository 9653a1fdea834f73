import NeOs.Library.Folds
import NeOs.Ls.Listing

/-! `main` of `bin/ls.c`: the command line, read from left to right, and the listing it asks for.
The options are a fold of settings over the flags, in which clusters and the places of the operands
do not show. -/
namespace NeOs
open Library Library.Run
namespace Ls

section Parsing

/-- A character constant. -/
def byte (c : Char) : UInt8 := UInt8.ofNat c.toNat

def comparePrefix (str pre : List UInt8) : Bool := strncmp str pre pre.length=0

/-- The result and the flags afterwards. A value of `--sort=` that is none of the three changes
nothing, and the result is `0` all the same. -/
def parseLongArgument (str : List UInt8) (flags : Flags) : ℤ × Flags :=
  if comparePrefix str (text "--sort=") then
    let value := str.drop (text "--sort=").length
    if strcmp value (text "none")=0 then (0,{ flags with sort := .none })
    else if strcmp value (text "name")=0 then (0,{ flags with sort := .name })
    else if strcmp value (text "width")=0 then (0,{ flags with sort := .width })
    else (0,flags)
  else if strcmp str (text "--reverse")=0 then (0,{ flags with reverse := true })
  else (1,flags)

/-- One letter of a cluster. -/
def parseLetter (flags : Flags) (c : UInt8) : Flags :=
  if c=byte 'a' ∨ c=byte 'A' then { flags with showHidden := true }
  else if c=byte 'U' then { flags with sort := .none }
  else if c=byte 'r' then { flags with reverse := true }
  else if c=byte 'R' then { flags with recursive := true }
  else flags

/-- An argument that starts with `-`; `none` stands for the return of `7`. -/
def parseOption (flags : Flags) (str : List UInt8) : Option Flags :=
  if charAt str 1=dash then
    let r := parseLongArgument str flags
    if r.1≠0 then none else some r.2
  else some ((str.drop 1).foldl parseLetter flags)

/-- What `main` gathers from the arguments. -/
structure Parsed where
  flags : Flags
  paths : Slots CharPtr
  deriving Repr, DecidableEq

/-- One round of the loop over the arguments. -/
def parseArgument (s : Parsed) (str : List UInt8) : Option Parsed :=
  if charAt str 0=dash then (parseOption s.flags str).map fun flags => ⟨flags,s.paths⟩
  else some ⟨s.flags,s.paths.insert (.string str)⟩

/-- The loop starts behind the name of the program. -/
def parseArguments (argv : List (List UInt8)) : Option Parsed :=
  run parseArgument ⟨defaultFlags,Slots.new 0⟩ argv.tail

/-- `printf("%d", n)` for a `long int`: its low 32 bits are printed. -/
def decimalInt (n : ℤ) : List UInt8 :=
  let i := n.bmod (2^32)
  if i < 0 then text "-"++decimal i.natAbs else decimal i.natAbs

/-- `main` behind the loop. -/
def listParsed (sys : System) (fuel : ℕ) (p : Parsed) : Exec ℤ := do
  put (text "\x1b[?25l")
  let err ← ls sys fuel [] (Slots.new 0) p.paths p.flags
  if err≠0 then put (text "ERROR: "++decimalInt err++text "\n") else pure ()
  put (text "\x1b[?25h")
  pure err

def main (sys : System) (fuel : ℕ) (argv : List (List UInt8)) : Exec ℤ :=
  match parseArguments argv with
  | none => pure 7
  | some p => listParsed sys fuel p

end Parsing

section Settings

/-- What a letter or a long option asks for. -/
inductive Setting
  | showHidden
  | reverse
  | recursive
  | sort (mode : SortMode)
  deriving Repr, DecidableEq

def Setting.apply (flags : Flags) : Setting → Flags
  | .showHidden => { flags with showHidden := true }
  | .reverse => { flags with reverse := true }
  | .recursive => { flags with recursive := true }
  | .sort mode => { flags with sort := mode }

def letterSetting (c : UInt8) : Option Setting :=
  if c=byte 'a' ∨ c=byte 'A' then some .showHidden
  else if c=byte 'U' then some (.sort .none)
  else if c=byte 'r' then some .reverse
  else if c=byte 'R' then some .recursive
  else none

def longSetting (a : List UInt8) : Option Setting :=
  if a=text "--sort=none" then some (.sort .none)
  else if a=text "--sort=name" then some (.sort .name)
  else if a=text "--sort=width" then some (.sort .width)
  else if a=text "--reverse" then some .reverse
  else none

def isOption (a : List UInt8) : Bool := (text "-").isPrefixOf a

def isLong (a : List UInt8) : Bool := (text "--").isPrefixOf a

/-- An argument that begins with `-` but not with `--`. -/
def isCluster (a : List UInt8) : Bool := isOption a && !isLong a

/-- The settings of an argument, from left to right. -/
def settings (a : List UInt8) : List Setting :=
  if isCluster a then a.filterMap letterSetting else (longSetting a).toList

/-- The arguments that the loop stops at. -/
def Refused (a : List UInt8) : Prop :=
  isLong a=true ∧ ¬(text "--sort=").IsPrefix a ∧ a≠text "--reverse"

instance (a : List UInt8) : Decidable (Refused a) := inferInstanceAs (Decidable (_ ∧ _ ∧ _))

theorem isOption_iff (a : List UInt8) : isOption a=true ↔ charAt a 0=dash := by
  rw [isOption,List.isPrefixOf_iff_prefix]
  change [dash].IsPrefix a ↔ _
  cases a with
  | nil => decide
  | cons x a => simp [List.cons_prefix_cons,charAt,eq_comm]

theorem isLong_iff (a : List UInt8) : isLong a=true ↔ charAt a 0=dash ∧ charAt a 1=dash := by
  rw [isLong,List.isPrefixOf_iff_prefix]
  change [dash,dash].IsPrefix a ↔ _
  rcases a with _ | ⟨x,_ | ⟨y,a⟩⟩
  · decide
  · have h0 : (0 : UInt8)≠dash := by decide
    simp [List.cons_prefix_cons,charAt,h0]
  · simp [List.cons_prefix_cons,charAt,eq_comm]

theorem comparePrefix_iff {a b : List UInt8} (hb : 0 ∉ b) :
    comparePrefix a b=true ↔ b.IsPrefix a := by
  rw [comparePrefix,decide_eq_true_iff,strncmp_length_eq_zero_iff hb]

theorem parseLetter_eq (flags : Flags) (c : UInt8) :
    parseLetter flags c=(letterSetting c).toList.foldl Setting.apply flags := by
  unfold parseLetter letterSetting
  split_ifs <;> rfl

/-- A cluster applies the settings of its letters one after the other. -/
theorem foldl_parseLetter (flags : Flags) (cs : List UInt8) :
    cs.foldl parseLetter flags=(cs.filterMap letterSetting).foldl Setting.apply flags := by
  induction cs generalizing flags with
  | nil => rfl
  | cons c cs ih =>
    rw [List.foldl_cons,ih,parseLetter_eq]
    cases h : letterSetting c with
    | none => rw [List.filterMap_cons_none h]; rfl
    | some t => rw [List.filterMap_cons_some h]; rfl

theorem longSetting_sort (v : List UInt8) :
    longSetting (text "--sort="++v)=
      if v=text "none" then some (.sort .none)
      else if v=text "name" then some (.sort .name)
      else if v=text "width" then some (.sort .width)
      else none := by
  have happ : ∀ w, text "--sort="++v=text "--sort="++w ↔ v=w := fun w => List.append_right_inj _
  have hrev : text "--sort="++v≠text "--reverse" := by
    intro h
    have h2 : byte 's'=byte 'r' := congrArg (fun a => charAt a 2) h
    exact absurd h2 (by decide)
  unfold longSetting
  rw [if_neg hrev]
  simp only [← happ]
  rfl

/-- A long option that is not refused applies its setting, if it has one. -/
theorem parseLongArgument_eq {a : List UInt8} (ha : 0 ∉ a) (flags : Flags) :
    parseLongArgument a flags=
      if (text "--sort=").IsPrefix a ∨ a=text "--reverse" then
        (0,(longSetting a).toList.foldl Setting.apply flags)
      else (1,flags) := by
  unfold parseLongArgument
  by_cases hsort : (text "--sort=").IsPrefix a
  · rw [if_pos ((comparePrefix_iff (by decide)).mpr hsort),if_pos (Or.inl hsort)]
    obtain ⟨v,rfl⟩ := hsort
    have hv : 0 ∉ v := fun h => ha (List.mem_append_right _ h)
    rw [List.drop_left,longSetting_sort]
    simp only [strcmp_eq_zero_iff hv (by decide : 0 ∉ text "none"),
      strcmp_eq_zero_iff hv (by decide : 0 ∉ text "name"),
      strcmp_eq_zero_iff hv (by decide : 0 ∉ text "width")]
    split_ifs <;> rfl
  · rw [if_neg (mt (comparePrefix_iff (by decide)).mp hsort)]
    simp only [hsort,false_or,strcmp_eq_zero_iff ha (by decide : 0 ∉ text "--reverse")]
    split_ifs with h
    · rw [h]
      rfl
    · rfl

/-- An option is refused or applies its settings. -/
theorem parseOption_eq {a : List UInt8} (ha : 0 ∉ a) (ho : isOption a=true) (flags : Flags) :
    parseOption flags a=
      if ¬Refused a then some ((settings a).foldl Setting.apply flags) else none := by
  have hdash := (isOption_iff a).mp ho
  unfold parseOption
  by_cases hlong : charAt a 1=dash
  · have hl : isLong a=true := (isLong_iff a).mpr ⟨hdash,hlong⟩
    have hset : settings a=(longSetting a).toList := by simp [settings,isCluster,hl]
    have hiff : ¬Refused a ↔ (text "--sort=").IsPrefix a ∨ a=text "--reverse" := by
      simp only [Refused,hl,true_and]
      tauto
    rw [if_pos hlong,parseLongArgument_eq ha,hset]
    simp only [hiff]
    split_ifs <;> simp_all
  · have hl : isLong a=false := by
      rw [Bool.eq_false_iff,ne_eq,isLong_iff]
      exact fun h => hlong h.2
    have hnot : ¬Refused a := by
      rintro ⟨h,-⟩
      exact absurd h (by simp [hl])
    have hset : settings a=(a.drop 1).filterMap letterSetting := by
      rw [settings,isCluster,ho,hl]
      cases a with
      | nil => rfl
      | cons x a =>
        obtain rfl : x=dash := hdash
        rfl
    rw [if_neg hlong,if_pos hnot,foldl_parseLetter,hset]

/-- An argument that is not an option has no settings. -/
theorem settings_operand {a : List UInt8} (h : isOption a=false) : settings a=[] := by
  have hlong : longSetting a=none := by
    have hne : ∀ b, isOption b=true → a≠b := by
      rintro b hb rfl
      exact absurd hb (by simp [h])
    rw [longSetting,if_neg (hne _ (by decide)),if_neg (hne _ (by decide)),if_neg (hne _ (by decide)),
      if_neg (hne _ (by decide))]
  rw [settings,isCluster,h,hlong]
  rfl

theorem not_refused_operand {a : List UInt8} (h : isOption a=false) : ¬Refused a := by
  rintro ⟨hl,-⟩
  have ho := (isOption_iff a).mpr ((isLong_iff a).mp hl).1
  exact absurd ho (by simp [h])

end Settings

section CommandLine

def options (args : List (List UInt8)) : List (List UInt8) := args.filter isOption

def operands (args : List (List UInt8)) : List (List UInt8) := args.filter fun a => !isOption a

/-- The options act on the flags and the operands on the paths. -/
theorem parseArguments_eq_options (argv : List (List UInt8)) :
    parseArguments argv=(run parseOption defaultFlags (options argv.tail)).map fun flags =>
      ⟨flags,((operands argv.tail).map CharPtr.string).foldl Slots.insert (Slots.new 0)⟩ := by
  rw [List.foldl_map]
  apply @run_interleaved Parsed _ _ _ parseArgument Parsed.mk
  · intro flags paths a ha
    rw [parseArgument,if_pos ((isOption_iff a).mp ha)]
  · intro flags paths a ha
    rw [parseArgument,if_neg (mt (isOption_iff a).mpr (by simp [ha]))]

theorem flatMap_settings_options (args : List (List UInt8)) :
    (options args).flatMap settings=args.flatMap settings := by
  induction args with
  | nil => rfl
  | cons a args ih =>
    cases h : isOption a with
    | true => simpa [options,List.filter_cons,h] using ih
    | false => simpa [options,List.filter_cons,h,settings_operand h] using ih

/-- The command line is refused, or its settings are applied from left to right and its operands
are collected. -/
theorem parseArguments_eq {argv : List (List UInt8)} (hnul : ∀ a ∈ argv.tail, 0 ∉ a) :
    parseArguments argv=
      if ∀ a ∈ argv.tail, ¬Refused a then
        some ⟨(argv.tail.flatMap settings).foldl Setting.apply defaultFlags,
          ((operands argv.tail).map CharPtr.string).foldl Slots.insert (Slots.new 0)⟩
      else none := by
  have hstep : ∀ a ∈ options argv.tail, ∀ flags, parseOption flags a=
      if ¬Refused a then some ((settings a).foldl Setting.apply flags) else none := by
    intro a ha flags
    obtain ⟨ha,ho⟩ := List.mem_filter.mp ha
    exact parseOption_eq (hnul a ha) ho flags
  have hall : (∀ a ∈ options argv.tail, ¬Refused a) ↔ ∀ a ∈ argv.tail, ¬Refused a := by
    constructor
    · intro h a ha
      cases ho : isOption a with
      | true => exact h a (List.mem_filter.mpr ⟨ha,ho⟩)
      | false => exact not_refused_operand ho
    · intro h a ha
      exact h a (List.mem_filter.mp ha).1
  rw [parseArguments_eq_options,run_congr hstep,run_ite,← List.foldl_flatMap,
    flatMap_settings_options]
  simp only [hall]
  split_ifs <;> rfl

theorem parseArguments_eq_none_iff {argv : List (List UInt8)} (hnul : ∀ a ∈ argv.tail, 0 ∉ a) :
    parseArguments argv=none ↔ ∃ a ∈ argv.tail, Refused a := by
  rw [parseArguments_eq hnul]
  split_ifs with h
  · simpa using h
  · simpa using h

/-- `main` returns `7` before it prints anything exactly when the loop stops. Otherwise it hides
the cursor first. -/
theorem main_eq_seven_iff (sys : System) (fuel : ℕ) (argv : List (List UInt8)) :
    main sys fuel argv=Traced.done [] 7 ↔ parseArguments argv=none := by
  unfold main
  cases h : parseArguments argv with
  | none => exact ⟨fun _ => rfl,fun _ => rfl⟩
  | some p =>
    simp only [reduceCtorEq,iff_false]
    intro hmain
    have hevents : (listParsed sys fuel p).events=[] := congrArg Traced.events hmain
    simp [listParsed,put,Traced.emit] at hevents

/-- An accepted command line lists its operands with its flags. -/
theorem main_of_parsed {sys : System} {fuel : ℕ} {argv : List (List UInt8)} {p : Parsed}
    (h : parseArguments argv=some p) : main sys fuel argv=listParsed sys fuel p := by
  rw [main,h]

theorem paths_eq_operands {argv : List (List UInt8)} {p : Parsed} (h : parseArguments argv=some p) :
    p.paths=((operands argv.tail).map CharPtr.string).foldl Slots.insert (Slots.new 0) := by
  rw [parseArguments_eq_options,Option.map_eq_some_iff] at h
  obtain ⟨flags,-,rfl⟩ := h
  rfl

/-- What is known of a listing that ends well carries over to `main`: it hides the cursor before
and shows it afterwards. -/
theorem main_of_lsMain {sys : System} {fuel : ℕ} {argv : List (List UInt8)} {p : Parsed}
    {es : List Event} (h : parseArguments argv=some p)
    (hls : lsMain sys fuel (operands argv.tail) p.flags=Traced.done es 0) :
    main sys fuel argv=
      Traced.done (.put (text "\x1b[?25l")::(es++[.put (text "\x1b[?25h")])) 0 := by
  have hpaths : ls sys fuel [] (Slots.new 0) p.paths p.flags=Traced.done es 0 := by
    rw [paths_eq_operands h]
    exact hls
  rw [main_of_parsed h,listParsed,hpaths]
  rfl

end CommandLine

section LongOptions

def longOptions : List (List UInt8) :=
  [text "--sort=none",text "--sort=name",text "--sort=width",text "--reverse"]

/-- `--sort=` with a value that is none of the three. -/
def UnknownSort (a : List UInt8) : Prop := (text "--sort=").IsPrefix a ∧ a ∉ longOptions

/-- The loop passes over the argument, whatever it has gathered so far. -/
def SilentlyIgnored (a : List UInt8) : Prop := ∀ s, parseArgument s a=some s

/-- `main` stops with `7` exactly at the arguments that begin with `--` and are not long options;
where it goes on, no argument that begins with `--` is taken for a path or ignored. -/
structure AcceptsLongOptions (sys : System) (fuel : ℕ) (argv : List (List UInt8)) : Prop where
  seven_iff : main sys fuel argv=Traced.done [] 7 ↔
    ∃ a ∈ argv.tail, isLong a=true ∧ a ∉ longOptions
  used : ∀ p, parseArguments argv=some p → ∀ a ∈ argv.tail, isLong a=true →
    CharPtr.string a ∉ p.paths.elems ∧ ¬SilentlyIgnored a

theorem longSetting_eq_none_iff (a : List UInt8) : longSetting a=none ↔ a ∉ longOptions := by
  unfold longSetting longOptions
  split_ifs <;> simp_all

theorem isLong_of_sort {a : List UInt8} (h : (text "--sort=").IsPrefix a) : isLong a=true := by
  rw [isLong,List.isPrefixOf_iff_prefix]
  exact (by decide : (text "--").IsPrefix (text "--sort=")).trans h

theorem refused_iff (a : List UInt8) :
    Refused a ↔ (isLong a=true ∧ a ∉ longOptions) ∧ ¬UnknownSort a := by
  constructor
  · rintro ⟨hl,hsort,hrev⟩
    refine ⟨⟨hl,?_⟩,fun h => hsort h.1⟩
    simp only [longOptions,List.mem_cons,List.not_mem_nil,or_false]
    rintro (rfl | rfl | rfl | rfl)
    · exact hsort (by decide)
    · exact hsort (by decide)
    · exact hsort (by decide)
    · exact hrev rfl
  · rintro ⟨⟨hl,hno⟩,hsort⟩
    refine ⟨hl,fun h => hsort ⟨h,hno⟩,?_⟩
    rintro rfl
    exact hno (by decide)

/-- Every setting shows on some flags. -/
theorem Setting.exists_apply_ne (t : Setting) : ∃ flags, t.apply flags≠flags := by
  cases t with
  | showHidden => exact ⟨defaultFlags,by decide⟩
  | reverse => exact ⟨defaultFlags,by decide⟩
  | recursive => exact ⟨defaultFlags,by decide⟩
  | sort mode =>
    cases mode with
    | none => exact ⟨defaultFlags,by decide⟩
    | name => exact ⟨{ defaultFlags with sort := .none },by decide⟩
    | width => exact ⟨defaultFlags,by decide⟩

theorem not_ignored_of_mem {a : List UInt8} (ha : a ∈ longOptions) : ¬SilentlyIgnored a := by
  intro hign
  have hnul : ∀ b ∈ longOptions, 0 ∉ b ∧ isOption b=true ∧ ¬Refused b ∧ isCluster b=false := by
    decide
  obtain ⟨h0,ho,hr,hc⟩ := hnul a ha
  obtain ⟨t,ht⟩ := Option.ne_none_iff_exists'.mp (mt (longSetting_eq_none_iff a).mp (not_not.mpr ha))
  obtain ⟨flags,hflags⟩ := t.exists_apply_ne
  have hset : settings a=[t] := by
    rw [settings,hc,ht]
    rfl
  have hstep := hign ⟨flags,Slots.new 0⟩
  rw [parseArgument,if_pos ((isOption_iff a).mp ho),parseOption_eq h0 ho,if_pos hr,hset] at hstep
  simp only [List.foldl_cons,List.foldl_nil,Option.map_some,Option.some.injEq,
    Parsed.mk.injEq,and_true] at hstep
  exact hflags hstep

/-- The paths are the operands. -/
theorem paths_of_parsed {argv : List (List UInt8)} {p : Parsed} (h : parseArguments argv=some p) :
    p.paths.elems=(operands argv.tail).map CharPtr.string := by
  rw [paths_eq_operands h,Slots.new_eq_filled,Slots.foldl_insert_filled]
  rfl

theorem not_mem_paths {argv : List (List UInt8)} {p : Parsed} (h : parseArguments argv=some p)
    {a : List UInt8} (ha : isLong a=true) : CharPtr.string a ∉ p.paths.elems := by
  rw [paths_of_parsed h]
  intro hmem
  obtain ⟨b,hb,heq⟩ := List.mem_map.mp hmem
  cases heq
  have ho := (isOption_iff a).mpr ((isLong_iff a).mp ha).1
  have hno := (List.mem_filter.mp hb).2
  exact absurd hno (by simp [ho])

/-- A value of `--sort=` that is none of the three is passed over, unless another argument stops
`main`. On all other command lines exactly the long options are accepted. -/
theorem acceptsLongOptions_iff (sys : System) (fuel : ℕ) {argv : List (List UInt8)}
    (hnul : ∀ a ∈ argv, 0 ∉ a) :
    AcceptsLongOptions sys fuel argv ↔
      (∀ a ∈ argv.tail, ¬UnknownSort a) ∨ ∃ a ∈ argv.tail, Refused a := by
  have hnone := parseArguments_eq_none_iff fun a ha => hnul a (List.mem_of_mem_tail ha)
  constructor
  · intro h
    by_cases hr : ∃ a ∈ argv.tail, Refused a
    · exact Or.inr hr
    · left
      intro a ha hsort
      apply hr
      rw [← hnone,← main_eq_seven_iff sys fuel,h.seven_iff]
      exact ⟨a,ha,isLong_of_sort hsort.1,hsort.2⟩
  · rintro (hsort | hr)
    · have hiff : ∀ a ∈ argv.tail, Refused a ↔ isLong a=true ∧ a ∉ longOptions := by
        intro a ha
        rw [refused_iff]
        exact and_iff_left (hsort a ha)
      constructor
      · rw [main_eq_seven_iff,hnone]
        exact exists_congr fun a => and_congr_right (hiff a)
      · intro p hp a ha hlong
        refine ⟨not_mem_paths hp hlong,not_ignored_of_mem ?_⟩
        by_contra hno
        have hstop := hnone.mpr ⟨a,ha,(hiff a ha).mpr ⟨hlong,hno⟩⟩
        rw [hstop] at hp
        cases hp
    · have hstop := hnone.mpr hr
      obtain ⟨a,ha,hra⟩ := hr
      constructor
      · rw [main_eq_seven_iff]
        exact iff_of_true hstop ⟨a,ha,((refused_iff a).mp hra).1⟩
      · intro p hp
        rw [hstop] at hp
        cases hp

/-- A near miss among options and operands. -/
theorem acceptsLongOptions_near_miss :
    AcceptsLongOptions (terminal 9 sampleDir) 1 [text "ls",text "d",text "--sort=width",text "--rev"] :=
  (acceptsLongOptions_iff (terminal 9 sampleDir) 1 (by decide)).mpr (Or.inr (by decide))

/-- `ls --sort=size` lists the working directory as if the option were not there. -/
theorem unknown_sort_ignored :
    main (terminal 9 sampleDir) 1 [text "ls",text "--sort=size"]≠Traced.done [] 7 ∧
      SilentlyIgnored (text "--sort=size") ∧
      ¬AcceptsLongOptions (terminal 9 sampleDir) 1 [text "ls",text "--sort=size"] := by
  have hmain : main (terminal 9 sampleDir) 1 [text "ls",text "--sort=size"]≠Traced.done [] 7 := by
    rw [ne_eq,main_eq_seven_iff]
    decide
  refine ⟨hmain,fun s => rfl,fun h => hmain (h.seven_iff.mpr ?_)⟩
  exact ⟨text "--sort=size",by decide,by decide,by decide⟩

end LongOptions

section LeftToRight

/-- The sort modes that an argument sets, from left to right. -/
def sortsSet (a : List UInt8) : List SortMode :=
  if isCluster a then (a.filter fun c => c=byte 'U').map fun _ => .none
  else if a=text "--sort=none" then [.none]
  else if a=text "--sort=name" then [.name]
  else if a=text "--sort=width" then [.width]
  else []

def Setting.sortMode : Setting → Option SortMode
  | .sort mode => some mode
  | _ => none

theorem letterSetting_showHidden (c : UInt8) :
    letterSetting c=some .showHidden ↔ c=byte 'a' ∨ c=byte 'A' := by
  unfold letterSetting
  split_ifs <;> simp_all

theorem letterSetting_reverse (c : UInt8) : letterSetting c=some .reverse ↔ c=byte 'r' := by
  constructor
  · unfold letterSetting
    split_ifs <;> simp_all
  · rintro rfl
    decide

theorem letterSetting_recursive (c : UInt8) : letterSetting c=some .recursive ↔ c=byte 'R' := by
  constructor
  · unfold letterSetting
    split_ifs <;> simp_all
  · rintro rfl
    decide

theorem letterSetting_sort (c : UInt8) :
    (letterSetting c).bind Setting.sortMode=if c=byte 'U' then some .none else none := by
  by_cases h : c=byte 'U'
  · rw [if_pos h,h]
    decide
  · rw [if_neg h,letterSetting]
    split_ifs <;> rfl

theorem longSetting_reverse (a : List UInt8) :
    longSetting a=some .reverse ↔ a=text "--reverse" := by
  constructor
  · unfold longSetting
    split_ifs <;> simp_all
  · rintro rfl
    decide

/-- A setting comes from a letter of a cluster or from a long option. -/
theorem mem_settings {t : Setting} {P : UInt8 → Prop} (hletter : ∀ c, letterSetting c=some t ↔ P c)
    (a : List UInt8) :
    t ∈ settings a ↔
      (isCluster a=true ∧ ∃ c ∈ a, P c) ∨ (isCluster a=false ∧ longSetting a=some t) := by
  unfold settings
  cases isCluster a with
  | true => simp [List.mem_filterMap,hletter]
  | false => simp

theorem showHidden_mem_settings (a : List UInt8) :
    .showHidden ∈ settings a ↔ isCluster a=true ∧ (byte 'a' ∈ a ∨ byte 'A' ∈ a) := by
  have hlong : longSetting a≠some .showHidden := by
    unfold longSetting
    split_ifs <;> simp
  rw [mem_settings letterSetting_showHidden]
  simp only [hlong,and_false,or_false]
  refine and_congr_right fun _ => ?_
  constructor
  · rintro ⟨c,hc,rfl | rfl⟩
    · exact Or.inl hc
    · exact Or.inr hc
  · rintro (h | h)
    · exact ⟨_,h,Or.inl rfl⟩
    · exact ⟨_,h,Or.inr rfl⟩

theorem recursive_mem_settings (a : List UInt8) :
    .recursive ∈ settings a ↔ isCluster a=true ∧ byte 'R' ∈ a := by
  have hlong : longSetting a≠some .recursive := by
    unfold longSetting
    split_ifs <;> simp
  rw [mem_settings letterSetting_recursive]
  simp [hlong]

theorem reverse_mem_settings (a : List UInt8) :
    .reverse ∈ settings a ↔ (isCluster a=true ∧ byte 'r' ∈ a) ∨ a=text "--reverse" := by
  rw [mem_settings letterSetting_reverse,longSetting_reverse]
  have hlong : isCluster a=false ∧ a=text "--reverse" ↔ a=text "--reverse" := by
    refine and_iff_right_of_imp ?_
    rintro rfl
    decide
  simp [hlong]

theorem filterMap_settings (a : List UInt8) :
    (settings a).filterMap Setting.sortMode=sortsSet a := by
  unfold settings sortsSet
  cases isCluster a with
  | true =>
    simp only [if_true,List.filterMap_filterMap,letterSetting_sort]
    induction a with
    | nil => rfl
    | cons c a ih =>
      by_cases h : c=byte 'U'
      · simp [h,ih]
      · simp [h,ih]
  | false =>
    unfold longSetting
    simp only [Bool.false_eq_true,if_false]
    split_ifs <;> rfl

theorem apply_showHidden (flags : Flags) (t : Setting) :
    (Setting.apply flags t).showHidden=true ↔ flags.showHidden=true ∨ t=.showHidden := by
  cases t <;> simp [Setting.apply]

theorem apply_recursive (flags : Flags) (t : Setting) :
    (Setting.apply flags t).recursive=true ↔ flags.recursive=true ∨ t=.recursive := by
  cases t <;> simp [Setting.apply]

theorem apply_reverse (flags : Flags) (t : Setting) :
    (Setting.apply flags t).reverse=true ↔ flags.reverse=true ∨ t=.reverse := by
  cases t <;> simp [Setting.apply]

/-- A flag that one setting raises. -/
theorem foldl_apply_raised {field : Flags → Bool} {t₀ : Setting}
    (h : ∀ flags t, field (Setting.apply flags t)=true ↔ field flags=true ∨ t=t₀) (flags : Flags)
    (ts : List Setting) :
    field (ts.foldl Setting.apply flags)=true ↔ field flags=true ∨ t₀ ∈ ts := by
  rw [foldl_raise h]
  simp

theorem foldl_apply_sort (flags : Flags) (ts : List Setting) :
    (ts.foldl Setting.apply flags).sort=(ts.filterMap Setting.sortMode).getLast?.getD flags.sort := by
  apply foldl_assign
  intro flags t
  cases t <;> rfl

/-- The flags of an accepted command line. -/
theorem flags_of_parsed {argv : List (List UInt8)} (hnul : ∀ a ∈ argv.tail, 0 ∉ a) {p : Parsed}
    (h : parseArguments argv=some p) :
    (p.flags.showHidden=true ↔
      ∃ a ∈ argv.tail, isCluster a=true ∧ (byte 'a' ∈ a ∨ byte 'A' ∈ a)) ∧
    (p.flags.recursive=true ↔ ∃ a ∈ argv.tail, isCluster a=true ∧ byte 'R' ∈ a) ∧
    (p.flags.reverse=true ↔
      (∃ a ∈ argv.tail, isCluster a=true ∧ byte 'r' ∈ a) ∨ text "--reverse" ∈ argv.tail) ∧
    p.flags.sort=(argv.tail.flatMap sortsSet).getLast?.getD .name := by
  have hflags : p.flags=(argv.tail.flatMap settings).foldl Setting.apply defaultFlags := by
    rw [parseArguments_eq hnul] at h
    split_ifs at h
    cases h
    rfl
  rw [hflags]
  refine ⟨?_,?_,?_,?_⟩
  · rw [foldl_apply_raised apply_showHidden]
    simp only [List.mem_flatMap,showHidden_mem_settings,defaultFlags,Bool.false_eq_true,false_or]
  · rw [foldl_apply_raised apply_recursive]
    simp only [List.mem_flatMap,recursive_mem_settings,defaultFlags,Bool.false_eq_true,false_or]
  · rw [foldl_apply_raised apply_reverse]
    simp only [List.mem_flatMap,reverse_mem_settings,defaultFlags,Bool.false_eq_true,false_or,
      and_or_left,exists_or,exists_eq_right]
  · rw [foldl_apply_sort,List.filterMap_flatMap]
    simp only [filterMap_settings]
    rfl

theorem parseOption_cluster {cs : List UInt8} (h : dash ∉ cs) (flags : Flags) :
    parseOption flags (dash::cs)=some (cs.foldl parseLetter flags) := by
  have hne : charAt (dash::cs) 1≠dash := by
    cases cs with
    | nil => decide
    | cons c cs =>
      rintro (rfl : c=dash)
      exact h (by simp)
  rw [parseOption,if_neg hne]
  rfl

/-- The letters of a cluster, each as an option of its own. -/
def letterOptions (cs : List UInt8) : List (List UInt8) := cs.map fun c => [dash,c]

theorem run_letterOptions {cs : List UInt8} (h : dash ∉ cs) (flags : Flags) :
    run parseOption flags (letterOptions cs)=some (cs.foldl parseLetter flags) := by
  induction cs generalizing flags with
  | nil => rfl
  | cons c cs ih =>
    rw [List.mem_cons,not_or] at h
    have hc := parseOption_cluster (by simpa using h.1 : dash ∉ [c]) flags
    rw [letterOptions,List.map_cons,run_cons,hc]
    exact ih h.2 (parseLetter flags c)

theorem isOption_dash (cs : List UInt8) : isOption (dash::cs)=true := (isOption_iff _).mpr rfl

theorem options_letterOptions (cs : List UInt8) :
    options (letterOptions cs)=letterOptions cs ∧ operands (letterOptions cs)=[] := by
  unfold options operands letterOptions
  rw [List.filter_eq_self,List.filter_eq_nil_iff]
  simp [isOption_dash]

/-- Splitting a cluster into its letters changes neither the flags nor the paths. -/
theorem parseArguments_split {argv : List (List UInt8)} (prog : List UInt8)
    {pre post : List (List UInt8)} {cs : List UInt8} (hargv : argv.tail=pre++(dash::cs)::post)
    (hcs : dash ∉ cs) :
    parseArguments (prog::(pre++letterOptions cs++post))=parseArguments argv := by
  obtain ⟨hopt,hop⟩ := options_letterOptions cs
  have hoptions : options (pre++(dash::cs)::post)=options pre++[dash::cs]++options post := by
    simp [options,isOption_dash]
  have hoptions' : options (pre++letterOptions cs++post)=
      options pre++letterOptions cs++options post := by
    rw [options,List.filter_append,List.filter_append]
    exact congrArg (options pre++·++options post) hopt
  have hoperands : operands (pre++letterOptions cs++post)=operands (pre++(dash::cs)::post) := by
    have hl : operands (pre++(dash::cs)::post)=operands pre++operands post := by
      simp [operands,isOption_dash]
    rw [hl,operands,List.filter_append,List.filter_append]
    exact (congrArg (operands pre++·++operands post) hop).trans (by rw [List.append_nil])
  have hrun : run parseOption defaultFlags (options pre++letterOptions cs++options post)=
      run parseOption defaultFlags (options pre++[dash::cs]++options post) := by
    simp only [run_append,run_letterOptions hcs,run_cons,run_nil,parseOption_cluster hcs,
      Option.bind_some]
  rw [parseArguments_eq_options,parseArguments_eq_options,hargv,List.tail_cons,hoptions,hoptions',
    hoperands,hrun]

/-- Only the order of the options and the order of the operands count. -/
theorem parseArguments_moved {argv argv' : List (List UInt8)}
    (hopt : options argv'.tail=options argv.tail) (hop : operands argv'.tail=operands argv.tail) :
    parseArguments argv'=parseArguments argv := by
  rw [parseArguments_eq_options,parseArguments_eq_options,hopt,hop]

/-- An accepted command line is read from left to right. The operands are the paths, a flag is up
if one of its letters or long options occurs, and the last option that sets the sort mode decides.
Splitting a cluster and moving the operands make no difference. -/
theorem options_left_to_right (sys : System) (fuel : ℕ) {argv : List (List UInt8)}
    (hnul : ∀ a ∈ argv, 0 ∉ a) (hacc : main sys fuel argv≠Traced.done [] 7) :
    (∃ p, parseArguments argv=some p ∧ main sys fuel argv=listParsed sys fuel p ∧
      p.paths.elems=(operands argv.tail).map CharPtr.string ∧
      (p.flags.showHidden=true ↔
        ∃ a ∈ argv.tail, isCluster a=true ∧ (byte 'a' ∈ a ∨ byte 'A' ∈ a)) ∧
      (p.flags.recursive=true ↔ ∃ a ∈ argv.tail, isCluster a=true ∧ byte 'R' ∈ a) ∧
      (p.flags.reverse=true ↔
        (∃ a ∈ argv.tail, isCluster a=true ∧ byte 'r' ∈ a) ∨ text "--reverse" ∈ argv.tail) ∧
      p.flags.sort=(argv.tail.flatMap sortsSet).getLast?.getD .name) ∧
    (∀ prog pre cs post, argv.tail=pre++(dash::cs)::post → dash ∉ cs →
      parseArguments (prog::(pre++letterOptions cs++post))=parseArguments argv) ∧
    ∀ argv', options argv'.tail=options argv.tail → operands argv'.tail=operands argv.tail →
      parseArguments argv'=parseArguments argv := by
  rw [ne_eq,main_eq_seven_iff] at hacc
  obtain ⟨p,hp⟩ := Option.ne_none_iff_exists'.mp hacc
  refine ⟨⟨p,hp,main_of_parsed hp,paths_of_parsed hp,?_⟩,?_,?_⟩
  · exact flags_of_parsed (fun a ha => hnul a (List.mem_of_mem_tail ha)) hp
  · intro prog pre cs post hargv hcs
    exact parseArguments_split prog hargv hcs
  · intro argv' hopt hop
    exact parseArguments_moved hopt hop

/-- Options of both kinds around an operand. -/
def mixedLine : List (List UInt8) :=
  [text "ls",text "-rU",text "d",text "--sort=width",text "-aR"]

theorem options_left_to_right_mixed :
    ∃ p, parseArguments mixedLine=some p ∧ p.paths.elems=[.string (text "d")] ∧
      p.flags.sort=.width ∧ p.flags.reverse=true ∧
      parseArguments [text "ls",text "-r",text "-U",text "d",text "--sort=width",text "-aR"]=some p ∧
      parseArguments [text "ls",text "-rU",text "--sort=width",text "-aR",text "d"]=some p := by
  obtain ⟨⟨p,hp,-,hpaths,-,-,hrev,hsort⟩,hsplit,hmove⟩ :=
    @options_left_to_right (terminal 9 sampleDir) 1 mixedLine (by decide) (by
      rw [ne_eq,main_eq_seven_iff]
      decide)
  refine ⟨p,hp,hpaths.trans (by decide),hsort.trans (by decide),hrev.mpr (by decide),?_,?_⟩
  · exact (hsplit (text "ls") [] (text "rU") _ rfl (by decide)).trans hp
  · exact (hmove _ (by decide) (by decide)).trans hp

end LeftToRight

section ExitCode

/-- The computation, if it ends, ends with `0`. -/
def ReturnsZero (x : Exec ℤ) : Prop := ∀ r, x.result=.ok r → r=0

theorem ReturnsZero.bind {α : Type} {x : Exec α} {f : α → Exec ℤ} (h : ∀ a, ReturnsZero (f a)) :
    ReturnsZero (x >>= f) := by
  intro r hr
  obtain ⟨a,-,hf,-⟩ := Traced.bind_ok hr
  exact h a r hf

/-- An error that is handed on is none. -/
theorem ReturnsZero.bind_err {x y : Exec ℤ} {g : ℤ → ℤ} (hx : ReturnsZero x) (hy : ReturnsZero y) :
    ReturnsZero (x >>= fun err => if err≠0 then pure (g err) else y) := by
  intro r hr
  obtain ⟨err,herr,hf,-⟩ := Traced.bind_ok hr
  rw [hx err herr] at hf
  exact hy r hf

theorem returnsZero_pure : ReturnsZero (pure 0) := by
  rintro r (h : Except.ok 0=Except.ok r)
  exact (Except.ok.inj h).symm

variable {sys : System} {print : List UInt8 → Exec ℤ} {flags : Flags}

theorem lsEach_returnsZero (h : ∀ path, ReturnsZero (print path)) (path : List UInt8)
    (names : Slots (List UInt8)) (ps : List CharPtr) :
    ReturnsZero (lsEach sys print path names ps) := by
  induction ps with
  | nil => exact returnsZero_pure
  | cons p ps ih =>
    refine ReturnsZero.bind fun name => ReturnsZero.bind fun _ => ?_
    exact ReturnsZero.bind_err (h _) (ReturnsZero.bind fun _ => ih)

theorem lsBody_returnsZero (hlist : flags.list=false) (h : ∀ path, ReturnsZero (print path))
    (path : List UInt8) (names : Slots (List UInt8)) (dirs : Slots CharPtr) :
    ReturnsZero (lsBody sys print path names dirs flags) := by
  rw [lsBody,if_neg (by simp [hlist])]
  refine ReturnsZero.bind fun _ => ?_
  generalize (withDefault dirs).elems=ps
  rcases ps with _ | ⟨p,_ | ⟨q,ps⟩⟩
  · exact lsEach_returnsZero h path names []
  · exact ReturnsZero.bind fun name => ReturnsZero.bind_err (h _) returnsZero_pure
  · exact lsEach_returnsZero h path names (p::q::ps)

theorem printDir_returnsZero {lsCall : LsCall}
    (h : ∀ path names dirs, ReturnsZero (lsCall path names dirs flags)) (path : List UInt8) :
    ReturnsZero (printDir sys lsCall path flags) := by
  refine ReturnsZero.bind fun l => ?_
  cases l with
  | none => exact returnsZero_pure
  | some l => exact ReturnsZero.bind_err (h path l.names l.dirs) returnsZero_pure

/-- Without `list` no error arises anywhere in the recursion. -/
theorem ls_returnsZero (hlist : flags.list=false) (fuel : ℕ) (path : List UInt8)
    (names : Slots (List UInt8)) (dirs : Slots CharPtr) :
    ReturnsZero (ls sys fuel path names dirs flags) := by
  induction fuel generalizing path names dirs with
  | zero =>
    intro r hr
    cases hr
  | succ fuel ih =>
    rw [ls]
    exact lsBody_returnsZero hlist (fun fullPath => printDir_returnsZero ih fullPath) path names dirs

theorem parseLongArgument_list (a : List UInt8) (flags : Flags) :
    (parseLongArgument a flags).2.list=flags.list := by
  simp only [parseLongArgument]
  split_ifs <;> rfl

theorem foldl_parseLetter_list (cs : List UInt8) (flags : Flags) :
    (cs.foldl parseLetter flags).list=flags.list := by
  induction cs generalizing flags with
  | nil => rfl
  | cons c cs ih =>
    rw [List.foldl_cons,ih,parseLetter]
    split_ifs <;> rfl

/-- No argument asks for `ls_list`. -/
theorem parseArgument_list {s t : Parsed} {a : List UInt8} (hs : s.flags.list=false)
    (h : parseArgument s a=some t) : t.flags.list=false := by
  unfold parseArgument at h
  split_ifs at h
  · obtain ⟨flags,hflags,rfl⟩ := Option.map_eq_some_iff.mp h
    unfold parseOption at hflags
    split_ifs at hflags
    · simp only [Option.ite_none_left_eq_some] at hflags
      rw [← Option.some.inj hflags.2]
      exact (parseLongArgument_list a s.flags).trans hs
    · cases hflags
      exact (foldl_parseLetter_list _ s.flags).trans hs
  · cases h
    exact hs

/-- Every run of `main` that ends returns `7` for a refused command line and `0` otherwise. -/
theorem main_returns (fuel : ℕ) {argv : List (List UInt8)} {r : ℤ}
    (h : (main sys fuel argv).result=.ok r) : r=if parseArguments argv=none then 7 else 0 := by
  cases hp : parseArguments argv with
  | none =>
    rw [main,hp] at h
    exact (Except.ok.inj h).symm
  | some p =>
    have hlist : p.flags.list=false :=
      run_invariant (fun s a t hs ht => parseArgument_list hs ht) rfl hp
    rw [main_of_parsed hp,listParsed] at h
    obtain ⟨_,-,h,-⟩ := Traced.bind_ok h
    obtain ⟨err,herr,h,-⟩ := Traced.bind_ok h
    rw [ls_returnsZero hlist fuel [] _ _ err herr] at h
    exact (Except.ok.inj h).symm

end ExitCode

end Ls
end NeOs
