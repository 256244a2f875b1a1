import Gfs.Lib.Words
import Gfs.Service.Odb
import Gfs.Types.Ids
import Gfs.Types.Selector

/-! Ingest (`gfs-service/src/ingest.rs`): the identifier an upstream URL is known by, and the
mirror that its refs are fetched into.
-/

namespace Gfs.Service

open Gfs.Types
open Gfs.Lib.Words

-- Identifiers

/-- What follows the first `://`, if there is one. -/
def splitScheme : Text → Option Text
  | [] => none
  | c :: rest =>
      if "://".toList <+: c :: rest then some ((c :: rest).drop 3) else splitScheme rest

/-- What follows the last at sign, or all. -/
def afterUserinfo (text : Text) : Text :=
  text.rtakeWhile (· ≠ '@')

/-- A text without a final `.git`. -/
def stripGit (text : Text) : Text :=
  (Odb.stripSuffix ".git".toList text).getD text

/-- A character an identifier keeps. -/
def isIdSafe (c : Char) : Bool :=
  c.isAlphanum || c = '.' || c = '-'

/-- Fold a text to the characters of an identifier: every run of others becomes one underscore. The
flag says whether the last character was folded.
-/
def foldUrl : Bool → Text → Text
  | _, [] => []
  | lastWasSep, c :: rest =>
      if isIdSafe c then c :: foldUrl false rest
      else if lastWasSep then foldUrl true rest
      else '_' :: foldUrl true rest

/-- Two dots in a row become a dot and an underscore. -/
def undot : Text → Text
  | '.' :: '.' :: rest => '.' :: '_' :: undot rest
  | c :: rest => c :: undot rest
  | [] => []

/-- What of a URL its identifier is folded from. -/
def urlBody (url : Text) : Text :=
  let trimmed := trim url
  let afterScheme := (splitScheme trimmed).getD trimmed
  let normalized : Text := (afterUserinfo afterScheme).map (fun c => if c = ':' then '/' else c)
  stripGit (Text.trimMatches normalized '/')

/-- The identifier an upstream URL is known by, where `quoted` is how a string is shown for
debugging.
-/
def repositoryIdFor (quoted : Text → Text) (url : Text) : Except GfsError RepositoryId :=
  if trim url = [] then .error (.invalid "an upstream URL is required")
  else
    let id := Text.trimMatches (Text.trimMatches (foldUrl false (urlBody url)) '_') '.'
    if id = [] then
      .error
        ⟨.invalidArgument, "cannot derive a repository id from ".toList ++ quoted url⟩
    else parseChecked checkRepositoryId (undot id)

-- Upstreams

/-- What an upstream is: a host, a port where one is given, and the components of a path. -/
structure Upstream where
  host : Text
  port : Option Text
  path : List Text
  deriving DecidableEq, Repr

/-- A text without outer slashes, a final `.git`, and the slashes before that. -/
def bare (text : Text) : Text :=
  Text.trimMatches (stripGit (Text.trimMatches text '/')) '/'

/-- A host and the port behind its last colon. -/
def hostPort (place : Text) : Text × Option Text :=
  let digits : Text := place.rtakeWhile Char.isDigit
  let before : Text := place.rdropWhile Char.isDigit
  if before.getLast? = some ':' then
    (before.dropLast, if digits = [] then none else some digits)
  else (place, none)

/-- The components of a path, however many slashes stand between them. -/
def components (path : Text) : List Text :=
  (path.splitOn '/').filter (· ≠ [])

/-- What follows the scheme of a URL, or all of it. -/
def behindScheme (url : Text) : Text :=
  (splitScheme (trim url)).getD (trim url)

/-- The upstream that a URL names. Behind a scheme, what comes before the first slash is the
authority; a URL without one may have a colon behind its host.
-/
def upstreamOf (url : Text) : Upstream :=
  let rest := bare (behindScheme url)
  match splitScheme (trim url) with
  | some _ =>
      let (host, port) := hostPort (afterUserinfo (rest.takeWhile (· ≠ '/')))
      ⟨host, port, components (rest.dropWhile (· ≠ '/'))⟩
  | none =>
      let place := rest.takeWhile (fun c => c ≠ '/' && c ≠ ':')
      let path := rest.dropWhile (fun c => c ≠ '/' && c ≠ ':')
      ⟨afterUserinfo place, none, components (if path.head? = some ':' then path.tail else path)⟩

/-- A slash or a colon. -/
def isDivider (c : Char) : Bool :=
  c = '/' || c = ':'

/-- Whether a URL ends in `.git` and then, among slashes, a colon. -/
def colonTail (url : Text) : Bool :=
  ".git".toList.isSuffixOf ((behindScheme url).rdropWhile isDivider)
  && ((behindScheme url).rtakeWhile isDivider).contains ':'

-- Words

/-- The words of what follows the last at sign. -/
def wordsAfter (text : Text) : List Text :=
  words isIdSafe (afterUserinfo text)

/-- Words and those of a component behind them: no word stands before an at sign. -/
def extend (before : List Text) (component : Text) : List Text :=
  if '@' ∈ component then wordsAfter component else before ++ words isIdSafe component

/-- The words of an upstream: those of its host, its port and its path. -/
def Upstream.words (upstream : Upstream) : List Text :=
  upstream.path.foldl extend
    (Lib.Words.words isIdSafe upstream.host ++ Lib.Words.words isIdSafe (upstream.port.getD []))

/-- Words without a final `.git`. -/
def lessGit (list : List Text) : List Text :=
  match list.getLast? with
  | none => []
  | some last => list.dropLast ++ single (stripGit last)

/-- Words as an identifier spells them: with an underscore between any two, without outer dots, and
with an underscore for the second of two dots.
-/
def spelled (list : List Text) : Text :=
  undot (Text.trimMatches (joined '_' list) '.')

/-- The words a URL is known by: its upstream's, and where it has a colon behind a final `.git`
these without it.
-/
def wordsOf (url : Text) : List Text :=
  if colonTail url then lessGit (upstreamOf url).words else (upstreamOf url).words

theorem foldUrl_eq (inside : Bool) (text : Text)
    : foldUrl inside text = collapse isIdSafe '_' inside text := by
  induction text generalizing inside with
  | nil => rfl
  | cons c rest ih => rw [foldUrl, collapse, ih, ih]

theorem isIdSafe_ne {c d : Char} (safe : isIdSafe c = true) (apart : isIdSafe d = false)
    : c ≠ d := by
  rintro rfl
  rw [safe] at apart
  cases apart

theorem isIdSafe_of_isDivider {c : Char} (divides : isDivider c = true) : isIdSafe c = false := by
  simp only [isDivider, Bool.or_eq_true, decide_eq_true_eq] at divides
  rcases divides with rfl | rfl <;> decide

theorem not_at_of_isDivider {c : Char} (divides : isDivider c = true) : c ≠ '@' := by
  rintro rfl
  exact absurd divides (by decide)

theorem afterUserinfo_append (front back : Text)
    : afterUserinfo (front ++ back)
      = if '@' ∈ back then afterUserinfo back else afterUserinfo front ++ back := by
  rw [afterUserinfo, List.rtakeWhile, List.reverse_append, List.takeWhile_append]
  split
  · rename_i all
    have clean : '@' ∉ back := by
      intro member
      have every := List.takeWhile_eq_self_iff.mp
        ((List.takeWhile_prefix _).eq_of_length all)
      exact absurd (every '@' (List.mem_reverse.mpr member)) (by decide)
    rw [if_neg clean, List.reverse_append, List.reverse_reverse]
    rfl
  · rename_i some_
    have member : '@' ∈ back := by
      by_contra clean
      refine some_ (congrArg List.length (List.takeWhile_eq_self_iff.mpr fun c inside => ?_))
      refine decide_eq_true fun same => clean ?_
      rw [← same]
      exact List.mem_reverse.mp inside
    rw [if_pos member]
    rfl

theorem stripGit_append (text : Text) : stripGit (text ++ ".git".toList) = text := by
  rw [stripGit, Odb.stripSuffix, List.reverse_append, stripPrefix_append]
  exact List.reverse_reverse text

theorem stripGit_of_not {text : Text} (other : ¬".git".toList <:+ text) : stripGit text = text := by
  rw [stripGit, Odb.stripSuffix, stripPrefix, if_neg]
  · rfl
  · rw [List.isPrefixOf_iff_prefix, List.reverse_prefix]
    exact other

theorem wordsAfter_append (front : Text) {back : Text}
    (parts : ∀ c ∈ back.head?, isIdSafe c = false)
    : wordsAfter (front ++ back) = extend (wordsAfter front) back := by
  rw [wordsAfter, afterUserinfo_append, extend]
  split
  · rfl
  · cases back with
    | nil => simp [wordsAfter, words, wordsFrom, single]
    | cons c back =>
        have here := parts c rfl
        rw [words_part here, words_cons here]
        rfl

theorem extend_nil (before : List Text) : extend before [] = before := by
  rw [extend, if_neg (by simp)]
  exact List.append_nil before

theorem wordsAfter_append_right (front : Text) {back : Text}
    (divides : ∀ c ∈ back, isDivider c = true)
    : wordsAfter (front ++ back) = wordsAfter front := by
  have parts : ∀ c ∈ back, isIdSafe c = false :=
    fun c member => isIdSafe_of_isDivider (divides c member)
  rw [wordsAfter_append front fun c first => parts c (List.mem_of_mem_head? first), extend, if_neg]
  · have none_ : words isIdSafe back = [] := by
      have := words_append_right parts []
      rwa [List.nil_append] at this
    rw [none_, List.append_nil]
  · exact fun member => not_at_of_isDivider (divides _ member) rfl

theorem wordsAfter_append_left {front : Text} (divides : ∀ c ∈ front, isDivider c = true)
    (back : Text)
    : wordsAfter (front ++ back) = wordsAfter back := by
  have clean : '@' ∉ front := fun member => not_at_of_isDivider (divides _ member) rfl
  have whole (text : Text) (clean : '@' ∉ text) : afterUserinfo text = text := by
    have same := afterUserinfo_append [] text
    rwa [if_neg clean, List.nil_append] at same
  rw [wordsAfter, afterUserinfo_append, wordsAfter]
  split
  · rfl
  · rename_i plain
    rw [whole front clean, whole back plain]
    exact words_append_left (fun c member => isIdSafe_of_isDivider (divides c member)) back

theorem isDivider_of_slash {c : Char} (slash : decide (c = '/') = true) : isDivider c = true := by
  rw [of_decide_eq_true slash]
  rfl

theorem wordsAfter_dropWhile (text : Text)
    : wordsAfter (text.dropWhile (· = '/')) = wordsAfter text := by
  have whole := List.takeWhile_append_dropWhile (p := (· = '/')) (l := text)
  conv_rhs => rw [← whole]
  exact (wordsAfter_append_left
    (fun c member => isDivider_of_slash (List.mem_takeWhile_imp (p := (· = '/')) member)) _).symm

theorem wordsAfter_trimMatches (text : Text)
    : wordsAfter (Text.trimMatches text '/') = wordsAfter text := by
  have whole := @List.rdropWhile_append_rtakeWhile _ (· = '/') (text.dropWhile (· = '/'))
  rw [← wordsAfter_dropWhile text, Text.trimMatches]
  conv_rhs => rw [← whole]
  exact (wordsAfter_append_right _
    fun c member => isDivider_of_slash (List.mem_rtakeWhile_imp (p := (· = '/')) member)).symm

theorem extend_cons {c : Char} (divides : isDivider c = true) (before : List Text) (text : Text)
    : extend before (c :: text) = extend before text := by
  have apart : '@' ≠ c := (not_at_of_isDivider divides).symm
  have every : ∀ d ∈ [c], isDivider d = true := by
    intro d member
    rwa [List.mem_singleton.mp member]
  rw [extend, extend, words_cons (isIdSafe_of_isDivider divides)]
  simp only [List.mem_cons, apart, false_or]
  split
  · exact wordsAfter_append_left every text
  · rfl

theorem extend_slash (before : List Text) (front back : Text)
    : extend before (front ++ '/' :: back) = extend (extend before front) back := by
  have slash : isIdSafe '/' = false := by decide
  have parted : wordsAfter (front ++ '/' :: back) = extend (wordsAfter front) ('/' :: back) :=
    wordsAfter_append front fun c first => by cases first; exact slash
  have behind (words_ : List Text) : extend words_ ('/' :: back) = extend words_ back :=
    extend_cons rfl words_ back
  by_cases marked : '@' ∈ front
  · rw [extend, if_pos (List.mem_append_left _ marked), parted, behind, extend.eq_1 before,
      if_pos marked]
  · by_cases later : '@' ∈ back
    · rw [extend, if_pos (List.mem_append_right _ (List.mem_cons_of_mem _ later)), parted, behind,
        extend, if_pos later, extend, if_pos later]
    · have clean : '@' ∉ front ++ '/' :: back := by
        rw [List.mem_append, List.mem_cons, not_or, not_or]
        exact ⟨marked, by decide, later⟩
      rw [extend, if_neg clean, extend, if_neg later, extend, if_neg marked, words_part slash,
        List.append_assoc]

theorem foldl_components (before : List Text) (path : Text)
    : (components path).foldl extend before = extend before path := by
  have one (before : List Text) (part : Text)
      : ([part].filter (· ≠ [])).foldl extend before = extend before part := by
    by_cases none_ : part = []
    · rw [none_, extend_nil]
      rfl
    · rw [List.filter_singleton]
      simp [none_]
  induction size : path.length using Nat.strong_induction_on generalizing before path with
  | _ n ih =>
      by_cases nested : '/' ∈ path
      · obtain ⟨front, back, rfl, clean⟩ := List.eq_append_cons_of_mem nested
        rw [components, Text.splitOn_slash, Text.splitOn_component clean, List.filter_append,
          List.foldl_append, one, extend_slash]
        refine ih back.length ?_ _ _ rfl
        rw [← size, List.length_append, List.length_cons]
        omega
      · rw [components, Text.splitOn_component nested, one]

/-- The words of a host and a port are those of the text that gives them. -/
theorem words_hostPort (place : Text)
    : words isIdSafe (hostPort place).1 ++ words isIdSafe ((hostPort place).2.getD [])
      = words isIdSafe place := by
  have none_ : words isIdSafe [] = [] := rfl
  have whole := @List.rdropWhile_append_rtakeWhile _ Char.isDigit place
  rw [hostPort]
  split
  · rename_i colon
    obtain ⟨front, same⟩ := List.getLast?_eq_some_iff.mp colon
    have behind : words isIdSafe place
        = words isIdSafe front ++ words isIdSafe (place.rtakeWhile Char.isDigit) := by
      conv_lhs => rw [← whole, same, List.append_assoc, List.singleton_append]
      exact words_part (by decide) _ _
    rw [behind, same, List.dropLast_concat]
    split
    · rename_i bare_
      rw [bare_]
      rfl
    · rfl
  · exact List.append_nil _

/-- The words of an upstream are those of what its URL says of it. -/
theorem words_upstreamOf (url : Text)
    : (upstreamOf url).words = wordsAfter (bare (behindScheme url)) := by
  generalize shape : bare (behindScheme url) = rest
  rw [upstreamOf, shape]
  cases splitScheme (trim url) with
  | some behind =>
      have whole := List.takeWhile_append_dropWhile (p := (· ≠ '/')) (l := rest)
      have ends : ∀ c ∈ (rest.dropWhile (· ≠ '/')).head?, isIdSafe c = false := by
        intro c first
        have := List.head?_dropWhile_not (· ≠ '/') rest
        rw [Option.mem_def.mp first] at this
        have slash : c = '/' := by simpa using this
        rw [slash]
        decide
      simp only [Upstream.words, foldl_components, words_hostPort]
      conv_rhs => rw [← whole, wordsAfter_append _ ends]
      rfl
  | none =>
      have whole := List.takeWhile_append_dropWhile (p := fun c => c ≠ '/' && c ≠ ':') (l := rest)
      have ends : ∀ c ∈ (rest.dropWhile (fun c => c ≠ '/' && c ≠ ':')).head?,
          isDivider c = true := by
        intro c first
        have stopped := List.head?_dropWhile_not (fun c => c ≠ '/' && c ≠ ':') rest
        rw [Option.mem_def.mp first] at stopped
        simp only [Bool.and_eq_false_iff, decide_eq_false_iff_not, not_not] at stopped
        simpa only [isDivider, Bool.or_eq_true, decide_eq_true_eq] using stopped
      have parted := wordsAfter_append (rest.takeWhile (fun c => c ≠ '/' && c ≠ ':'))
        fun c first => isIdSafe_of_isDivider (ends c first)
      rw [whole] at parted
      rw [parted]
      simp only [Upstream.words, foldl_components]
      change extend (wordsAfter (rest.takeWhile (fun c => c ≠ '/' && c ≠ ':')) ++ []) _ = _
      rw [List.append_nil]
      -- The colon behind a host adds nothing to what follows it.
      split
      · rename_i colon
        obtain ⟨path, same⟩ := List.head?_eq_some_iff.mp colon
        rw [same, List.tail_cons, extend_cons rfl]
      · rfl

-- What an identifier is folded from

theorem getLast?_rdropWhile {p : Char → Bool} {text : Text} {c : Char}
    (last : (text.rdropWhile p).getLast? = some c)
    : p c = false := by
  have stopped := List.head?_dropWhile_not p text.reverse
  rw [List.rdropWhile, List.getLast?_reverse] at last
  rwa [last] at stopped

theorem getLast?_of_suffix {ending text : Text} (ends : ending <:+ text) (some_ : ending ≠ [])
    : text.getLast? = ending.getLast? := by
  obtain ⟨front, rfl⟩ := ends
  rw [List.getLast?_append, List.getLast?_eq_some_getLast some_, Option.some_or]

theorem afterUserinfo_suffix (text : Text) : afterUserinfo text <:+ text :=
  List.rtakeWhile_suffix _ text

/-- A text in front of slashes, trimmed of slashes, loses its first ones only. -/
theorem trimMatches_append {front slashes : Text} (last : front.getLast? ≠ some '/')
    (all : ∀ c ∈ slashes, c = '/')
    : Text.trimMatches (front ++ slashes) '/' = front.dropWhile (· = '/') := by
  have every : ∀ c ∈ slashes, decide (c = '/') = true :=
    fun c member => decide_eq_true (all c member)
  by_cases none_ : front.dropWhile (· = '/') = []
  · have empty : front = [] := by
      by_contra some_
      refine last ?_
      rw [List.getLast?_eq_some_getLast some_, Option.some.injEq]
      exact of_decide_eq_true (List.dropWhile_eq_nil_iff.mp none_ _ (List.getLast_mem some_))
    rw [empty, Text.trimMatches, List.nil_append, List.dropWhile_eq_nil_iff.mpr every]
    rfl
  · have kept : (front.dropWhile (· = '/')).getLast? ≠ some '/' := by
      rwa [← getLast?_of_suffix (List.dropWhile_suffix _) none_]
    have begun
        : (front ++ slashes).dropWhile (· = '/') = front.dropWhile (· = '/') ++ slashes := by
      rw [List.dropWhile_append, if_neg (by simpa using none_)]
    rw [Text.trimMatches, begun, List.rdropWhile, List.reverse_append,
      List.dropWhile_append_of_pos (fun c member => every c (List.mem_reverse.mp member)),
      ← List.rdropWhile, List.rdropWhile_eq_self_iff]
    intro some_ slash
    refine kept ?_
    rw [List.getLast?_eq_some_getLast some_, of_decide_eq_true slash]

theorem dropWhile_git (text : Text)
    : (text ++ ".git".toList).dropWhile (· = '/')
      = text.dropWhile (· = '/') ++ ".git".toList := by
  rw [List.dropWhile_append]
  split
  · rename_i none_
    rw [List.isEmpty_iff.mp none_]
    rfl
  · rfl

/-- A text as an identifier is folded from it: a colon is a slash. -/
def slashed (text : Text) : Text :=
  text.map (fun c => if c = ':' then '/' else c)

theorem words_slashed (text : Text) : words isIdSafe (slashed text) = words isIdSafe text := by
  refine words_map (fun c safe => if_neg (isIdSafe_ne safe (by decide))) (fun c parts => ?_) text
  split
  · decide
  · exact parts

/-- A final `.git` is one before the colons are read as slashes. -/
theorem git_suffix_of_slashed {text : Text} (git : ".git".toList <:+ slashed text)
    : ".git".toList <:+ text := by
  obtain ⟨before, same⟩ := git
  obtain ⟨front, back, rfl, -, ends⟩ := List.map_eq_append_iff.mp same.symm
  have plain : ∀ c ∈ back, (if c = ':' then '/' else c) = c := by
    intro c member
    refine if_neg ?_
    rintro rfl
    have slash : '/' ∈ ".git".toList := by
      rw [← ends]
      exact List.mem_map_of_mem member
    exact absurd slash (by decide)
  rw [List.map_congr_left plain, List.map_id'] at ends
  exact ⟨front, by rw [ends]⟩

/-- The words that an identifier is folded from are those behind the last at sign, without final
slashes and colons and then a final `.git`.
-/
theorem words_urlBody (url : Text)
    : words isIdSafe (urlBody url)
      = wordsAfter (stripGit ((behindScheme url).rdropWhile isDivider)) := by
  have whole := @List.rdropWhile_append_rtakeWhile _ isDivider (behindScheme url)
  have divides : ∀ c ∈ (behindScheme url).rtakeWhile isDivider, isDivider c = true :=
    fun c member => List.mem_rtakeWhile_imp member
  have last {c : Char} (ends : ((behindScheme url).rdropWhile isDivider).getLast? = some c)
      : isDivider c = false := getLast?_rdropWhile ends
  rw [urlBody]
  change words isIdSafe
    (stripGit (Text.trimMatches (slashed (afterUserinfo (behindScheme url))) '/'))
    = _
  generalize (behindScheme url).rdropWhile isDivider = front at *
  generalize (behindScheme url).rtakeWhile isDivider = back at *
  have clean : '@' ∉ back := fun member => not_at_of_isDivider (divides _ member) rfl
  have slashes : ∀ c ∈ slashed back, c = '/' := by
    intro c member
    obtain ⟨d, inside, rfl⟩ := List.mem_map.mp member
    have divider := divides d inside
    simp only [isDivider, Bool.or_eq_true, decide_eq_true_eq] at divider
    rcases divider with rfl | rfl <;> rfl
  have ends : (slashed (afterUserinfo front)).getLast? ≠ some '/' := by
    rw [slashed, List.getLast?_map]
    intro slash
    obtain ⟨c, final, same⟩ := Option.map_eq_some_iff.mp slash
    have some_ : afterUserinfo front ≠ [] := by
      rintro none_
      rw [none_] at final
      cases final
    rw [← getLast?_of_suffix (afterUserinfo_suffix front) some_] at final
    have other := last final
    split at same
    · rename_i colon
      rw [colon] at other
      exact absurd other (by decide)
    · rw [same] at other
      exact absurd other (by decide)
  have trimmed
      : Text.trimMatches (slashed (afterUserinfo (behindScheme url))) '/'
        = (slashed (afterUserinfo front)).dropWhile (· = '/') := by
    rw [← whole, afterUserinfo_append, if_neg clean, slashed, List.map_append]
    exact trimMatches_append ends slashes
  rw [trimmed]
  by_cases git : ".git".toList <:+ front
  · obtain ⟨front, rfl⟩ := git
    have split_
        : slashed (afterUserinfo (front ++ ".git".toList))
          = slashed (afterUserinfo front) ++ ".git".toList := by
      rw [afterUserinfo_append, if_neg (by decide), slashed, List.map_append]
      rfl
    rw [split_, dropWhile_git, stripGit_append, stripGit_append, words_dropWhile, words_slashed]
    · rfl
    · intro c slash
      exact isIdSafe_of_isDivider (isDivider_of_slash slash)
  · rw [stripGit_of_not git, stripGit_of_not, words_dropWhile, words_slashed]
    · rfl
    · intro c slash
      exact isIdSafe_of_isDivider (isDivider_of_slash slash)
    · intro found
      refine git (List.IsSuffix.trans ?_ (afterUserinfo_suffix front))
      exact git_suffix_of_slashed (found.trans (List.dropWhile_suffix _))

/-- What a URL says of its upstream has the words of the URL, without a final `.git` that no colon
follows.
-/
theorem words_bare (text : Text)
    : wordsAfter (bare text)
      = if (text.rtakeWhile isDivider).contains ':' then wordsAfter (text.rdropWhile isDivider)
        else wordsAfter (stripGit (text.rdropWhile isDivider)) := by
  have whole := @List.rdropWhile_append_rtakeWhile _ isDivider text
  have divides : ∀ c ∈ text.rtakeWhile isDivider, isDivider c = true :=
    fun c member => List.mem_rtakeWhile_imp member
  have last {c : Char} (ends : (text.rdropWhile isDivider).getLast? = some c)
      : isDivider c = false := getLast?_rdropWhile ends
  rw [bare, wordsAfter_trimMatches]
  generalize text.rdropWhile isDivider = front at *
  generalize text.rtakeWhile isDivider = back at *
  split
  · rename_i colon
    have ended := @List.rdropWhile_append_rtakeWhile _ (· = '/') back
    have slashes : ∀ c ∈ back.rtakeWhile (· = '/'), c = '/' :=
      fun c member => of_decide_eq_true (List.mem_rtakeWhile_imp (p := (· = '/')) member)
    have some_ : back.rdropWhile (· = '/') ≠ [] := by
      intro none_
      have slash := List.rdropWhile_eq_nil_iff.mp none_ ':' (List.contains_iff_mem.mp colon)
      exact absurd slash (by decide)
    have final : (front ++ back.rdropWhile (· = '/')).getLast? = some ':' := by
      rw [getLast?_of_suffix (List.suffix_append _ _) some_, List.getLast?_eq_some_getLast some_,
        Option.some.injEq]
      have other := List.rdropWhile_last_not (· = '/') back some_
      have divider := divides _
        ((List.rdropWhile_prefix (· = '/') back).subset (List.getLast_mem some_))
      simp only [isDivider, Bool.or_eq_true, decide_eq_true_eq] at divider
      exact divider.resolve_left (by simpa using other)
    have trimmed
        : Text.trimMatches text '/' = (front ++ back.rdropWhile (· = '/')).dropWhile (· = '/') := by
      rw [← whole, ← ended, ← List.append_assoc, ended]
      exact trimMatches_append (by rw [final]; decide) slashes
    rw [stripGit_of_not, wordsAfter_trimMatches, ← whole, wordsAfter_append_right _ divides]
    rw [trimmed]
    intro git
    have ends := getLast?_of_suffix (git.trans (List.dropWhile_suffix _)) (by decide)
    rw [final] at ends
    exact absurd ends (by decide)
  · rename_i plain
    have slashes : ∀ c ∈ back, c = '/' := by
      intro c member
      have divider := divides c member
      simp only [isDivider, Bool.or_eq_true, decide_eq_true_eq] at divider
      refine divider.resolve_right ?_
      rintro rfl
      exact plain (List.contains_iff_mem.mpr member)
    have trimmed : Text.trimMatches text '/' = front.dropWhile (· = '/') := by
      rw [← whole]
      refine trimMatches_append (fun slash => ?_) slashes
      exact absurd (last slash) (by decide)
    rw [trimmed]
    by_cases git : ".git".toList <:+ front
    · obtain ⟨before, rfl⟩ := git
      rw [dropWhile_git, stripGit_append, stripGit_append, wordsAfter_dropWhile]
    · rw [stripGit_of_not git,
        stripGit_of_not fun found => git (found.trans (List.dropWhile_suffix _)),
        wordsAfter_dropWhile]

theorem lessGit_wordsAfter (text : Text)
    : lessGit (wordsAfter (text ++ ".git".toList)) = wordsAfter text := by
  have every : ".git".toList.all isIdSafe = true := by decide
  obtain ⟨front, last, short, long⟩ :=
    words_append_kept (by decide) (List.all_eq_true.mp every) (afterUserinfo text)
  rw [wordsAfter, afterUserinfo_append, if_neg (by decide), long, lessGit, List.getLast?_concat,
    wordsAfter, short]
  simp only [List.dropLast_concat, stripGit_append]

theorem words_eq_wordsOf (url : Text) : words isIdSafe (urlBody url) = wordsOf url := by
  rw [words_urlBody, wordsOf, words_upstreamOf, words_bare, colonTail]
  by_cases colon : ((behindScheme url).rtakeWhile isDivider).contains ':' = true
  · by_cases git : ".git".toList <:+ (behindScheme url).rdropWhile isDivider
    · rw [colon, List.isSuffixOf_iff_suffix.mpr git]
      obtain ⟨front, same⟩ := git
      rw [← same, stripGit_append]
      exact (lessGit_wordsAfter front).symm
    · rw [colon, stripGit_of_not git, if_pos rfl, if_neg]
      rw [Bool.and_true, List.isSuffixOf_iff_suffix]
      exact git
  · rw [Bool.not_eq_true] at colon
    rw [colon, Bool.and_false]
    rfl

-- Equal identifiers

section Ids

variable {quoted : Text → Text} {url : Text} {id : RepositoryId}

theorem val_of_repositoryIdFor (found : repositoryIdFor quoted url = .ok id)
    : id.1 = spelled (wordsOf url) ∧ Text.trimMatches (joined '_' (wordsOf url)) '.' ≠ [] := by
  have folded
      : Text.trimMatches (foldUrl false (urlBody url)) '_' = joined '_' (wordsOf url) := by
    rw [foldUrl_eq, Text.trimMatches, trimmed_collapse (by decide), words_eq_wordsOf]
  rw [repositoryIdFor, folded] at found
  split at found
  · cases found
  · dsimp only at found
    split at found
    · cases found
    · rename_i some_
      exact ⟨val_of_parseChecked found, some_⟩

theorem length_undot (text : Text) : (undot text).length = text.length := by
  fun_induction undot text with
  | case1 rest ih => rw [List.length_cons, List.length_cons, List.length_cons, List.length_cons, ih]
  | case2 c rest _ ih => rw [List.length_cons, List.length_cons, ih]
  | case3 => rfl

/-- A final `.git` is not lost with outer dots. -/
theorem length_trimMatches_git {name text : Text} (front : name <+: text)
    (some_ : Text.trimMatches name '.' ≠ [])
    : (Text.trimMatches name '.').length
      < (Text.trimMatches (text ++ ".git".toList) '.').length := by
  obtain ⟨back, rfl⟩ := front
  have begun : name.dropWhile (· = '.') ≠ [] := by
    intro none_
    rw [Text.trimMatches, none_] at some_
    exact some_ rfl
  have kept
      : (name ++ back ++ ".git".toList).dropWhile (· = '.')
        = name.dropWhile (· = '.') ++ back ++ ".git".toList := by
    rw [List.append_assoc, List.dropWhile_append, if_neg (by simpa using begun), List.append_assoc]
  have whole
      : Text.trimMatches (name ++ back ++ ".git".toList) '.'
        = name.dropWhile (· = '.') ++ back ++ ".git".toList := by
    rw [Text.trimMatches, kept, List.rdropWhile_eq_self_iff]
    intro nonempty dot
    have last := getLast?_of_suffix
      (List.suffix_append (name.dropWhile (· = '.') ++ back) ".git".toList) (by decide)
    rw [List.getLast?_eq_some_getLast nonempty, of_decide_eq_true dot] at last
    exact absurd last (by decide)
  have shorter := (List.rdropWhile_prefix (· = '.') (name.dropWhile (· = '.'))).length_le
  rw [whole, Text.trimMatches, List.length_append, List.length_append]
  exact Nat.lt_of_le_of_lt (Nat.le_trans shorter (Nat.le_add_right _ _))
    (Nat.lt_add_of_pos_right (by decide))

/-- The words with and without a final `.git` are spelled apart. -/
theorem spelled_ne {front : List Text} {last : Text}
    (some_ : Text.trimMatches (joined '_' (front ++ single last)) '.' ≠ [])
    : spelled (front ++ single last) ≠ spelled (front ++ [last ++ ".git".toList]) := by
  have grown : ∃ text, joined '_' (front ++ single last) <+: text
      ∧ joined '_' (front ++ [last ++ ".git".toList]) = text ++ ".git".toList := by
    by_cases alone : front = []
    · refine ⟨last, ?_, by rw [alone, List.nil_append, joined_singleton]⟩
      rw [alone, List.nil_append, single]
      split
      · exact List.nil_prefix
      · rw [joined_singleton]
    · refine ⟨joined '_' front ++ '_' :: last, ?_, ?_⟩
      · rw [single]
        split
        · rw [List.append_nil]
          exact List.prefix_append _ _
        · rw [joined_append '_' alone]
      · rw [joined_append '_' alone, List.append_assoc, List.cons_append]
  obtain ⟨text, begins, ends⟩ := grown
  intro same
  have lengths := congrArg List.length same
  rw [spelled, spelled, length_undot, length_undot, ends] at lengths
  exact absurd lengths (Nat.ne_of_lt (length_trimMatches_git begins some_))

/-- Where a colon follows a final `.git`, the words the upstream has end in it. -/
theorem words_of_colonTail (tailed : colonTail url = true)
    : ∃ front last,
        (upstreamOf url).words = front ++ [last ++ ".git".toList]
        ∧ wordsOf url = front ++ single last := by
  have every : ".git".toList.all isIdSafe = true := by decide
  have both := tailed
  rw [colonTail, Bool.and_eq_true, List.isSuffixOf_iff_suffix] at both
  obtain ⟨⟨text, same⟩, colon⟩ := both
  obtain ⟨front, last, short, long⟩ :=
    words_append_kept (by decide) (List.all_eq_true.mp every) (afterUserinfo text)
  have whole : (upstreamOf url).words = front ++ [last ++ ".git".toList] := by
    rw [words_upstreamOf, words_bare, if_pos colon, ← same, wordsAfter, afterUserinfo_append,
      if_neg (by decide), long]
  refine ⟨front, last, whole, ?_⟩
  rw [wordsOf, if_pos tailed, whole, lessGit, List.getLast?_concat]
  simp only [List.dropLast_concat, stripGit_append]

/-- URLs of one upstream have one identifier exactly where a colon follows a final `.git` in both or
in neither.
-/
theorem ids_of_same {other : Text} {idOther : RepositoryId}
    (found : repositoryIdFor quoted url = .ok id)
    (foundOther : repositoryIdFor quoted other = .ok idOther)
    (same : upstreamOf url = upstreamOf other)
    : id = idOther ↔ colonTail url = colonTail other := by
  obtain ⟨spells, some_⟩ := val_of_repositoryIdFor found
  obtain ⟨spellsOther, someOther⟩ := val_of_repositoryIdFor foundOther
  rw [Subtype.ext_iff, spells, spellsOther]
  -- A URL whose `.git` a colon follows is spelled apart from one of the same upstream without.
  have apart {first second : Text} (one : upstreamOf first = upstreamOf second)
      (tailed : colonTail first = true) (plain : colonTail second = false)
      (nonempty : Text.trimMatches (joined '_' (wordsOf first)) '.' ≠ [])
      : spelled (wordsOf first) ≠ spelled (wordsOf second) := by
    obtain ⟨front, last, whole, less⟩ := words_of_colonTail tailed
    have more : wordsOf second = front ++ [last ++ ".git".toList] := by
      rw [wordsOf, plain, ← one, whole]
      rfl
    rw [less] at nonempty ⊢
    rw [more]
    exact spelled_ne nonempty
  constructor
  · intro spelling
    cases tailed : colonTail url with
    | true =>
        cases tailedOther : colonTail other with
        | true => rfl
        | false => exact absurd spelling (apart same tailed tailedOther some_)
    | false =>
        cases tailedOther : colonTail other with
        | true => exact absurd spelling.symm (apart same.symm tailedOther tailed someOther)
        | false => rfl
  · intro tails
    rw [wordsOf, wordsOf, tails, same]

end Ids

-- Runs

/-- What one fetch did. -/
structure FetchOutcome where
  summary : Text
  diverged : List Text
  deriving DecidableEq, Repr

/-- What one ingest did. -/
structure IngestOutcome where
  repositoryId : RepositoryId
  created : Bool
  defaultBranch : Text
  summary : Text

/-- The catalog's record of a repository. -/
structure RepositoryRecord where
  displayName : Text
  repoPath : Text
  algorithm : HashAlgorithm
  upstreamUrl : Option Text
  deriving DecidableEq, Repr

/-- What the catalog, the registry and stock Git answer to one ingest. -/
structure Answers where
  getRepository : Except GfsError Unit
  initBare : Except GfsError Unit
  fetch : Except GfsError FetchOutcome
  defaultBranch : Except GfsError Text
  setHead : Except GfsError Unit
  readFormat : Except GfsError HashAlgorithm
  displayName : Except GfsError Text
  createRepository : Except GfsError Unit
  activate : Except GfsError Unit

/-- The catalog, and the URLs that refs were fetched from into the mirror at each path. -/
structure Mirrors where
  catalog : RepositoryId → Option RepositoryRecord
  fetched : Text → List Text

/-- A service that has ingested nothing. -/
def Mirrors.none : Mirrors where
  catalog := fun _ => .none
  fetched := fun _ => []

/-- Where the mirror of a repository is kept. -/
def mirrorPath (reposRoot : Text) (id : RepositoryId) : Text :=
  (if reposRoot = [] ∨ reposRoot.getLast? = some '/' then reposRoot else reposRoot ++ ['/'])
  ++ (id.1 ++ ".git".toList)

/-- The path of a repository: the one recorded, or where its mirror is to be kept. -/
def Mirrors.pathOf (mirrors : Mirrors) (reposRoot : Text) (id : RepositoryId) : Text :=
  match mirrors.catalog id with
  | some record => record.repoPath
  | .none => mirrorPath reposRoot id

/-- Note that refs were fetched. A fetch that fails may have brought some of them. -/
def Mirrors.note (mirrors : Mirrors) (path url : Text) : Mirrors where
  catalog := mirrors.catalog
  fetched := fun other =>
    if other = path then url :: mirrors.fetched other else mirrors.fetched other

/-- Record a new repository. -/
def Mirrors.create (mirrors : Mirrors) (id : RepositoryId) (record : RepositoryRecord)
    : Mirrors where
  catalog := fun other => if other = id then some record else mirrors.catalog other
  fetched := mirrors.fetched

/-- What is said of branches that diverged. -/
def divergedNote (diverged : List Text) : Text :=
  if diverged = [] then []
  else
    "\nleft as they are, diverged from upstream: ".toList
    ++ ", ".toList.intercalate diverged

/-- The part of an ingest after its fetch. -/
def register (answers : Answers) (mirrors : Mirrors) (path url : Text) (id : RepositoryId)
    (outcome : FetchOutcome)
    : Mirrors × Except GfsError IngestOutcome :=
  match answers.defaultBranch, answers.setHead with
  | .error e, _ => (mirrors, .error e)
  | .ok _, .error e => (mirrors, .error e)
  | .ok defaultBranch, .ok () =>
      let summary := outcome.summary ++ divergedNote outcome.diverged
      if (mirrors.catalog id).isSome then
        match answers.activate with
        | .error e => (mirrors, .error e)
        | .ok () => (mirrors, .ok ⟨id, false, defaultBranch, summary⟩)
      else
        match answers.readFormat, answers.displayName, answers.createRepository with
        | .error e, _, _ => (mirrors, .error e)
        | .ok _, .error e, _ => (mirrors, .error e)
        | .ok _, .ok _, .error e => (mirrors, .error e)
        | .ok algorithm, .ok displayName, .ok () =>
            let mirrors := mirrors.create id ⟨displayName, path, algorithm, some url⟩
            match answers.activate with
            | .error e => (mirrors, .error e)
            | .ok () => (mirrors, .ok ⟨id, true, defaultBranch, summary⟩)

/-- Clone an upstream into a mirror, or sync it if it is already here. -/
def ingest (quoted : Text → Text) (reposRoot : Text) (answers : Answers) (mirrors : Mirrors)
    (url : Text)
    : Mirrors × Except GfsError IngestOutcome :=
  match repositoryIdFor quoted url with
  | .error e => (mirrors, .error e)
  | .ok id =>
      match answers.getRepository with
      | .error e => (mirrors, .error e)
      | .ok () =>
          -- An existing repository keeps its recorded path.
          let path := mirrors.pathOf reposRoot id
          let initialized :=
            if (mirrors.catalog id).isSome then .ok () else answers.initBare
          match initialized with
          | .error e => (mirrors, .error e)
          | .ok () =>
              let mirrors := mirrors.note path url
              match answers.fetch with
              | .error e => (mirrors, .error e)
              | .ok outcome => register answers mirrors path url id outcome

/-- A sequence of ingests. -/
def ingestAll (quoted : Text → Text) (reposRoot : Text) (mirrors : Mirrors)
    (calls : List (Answers × Text))
    : Mirrors :=
  calls.foldl (fun mirrors call => (ingest quoted reposRoot call.1 mirrors call.2).1) mirrors

section Runs

variable {quoted : Text → Text} {reposRoot : Text} {mirrors : Mirrors}

/-- Every repository is recorded where its mirror is kept, and what was fetched into a mirror came
from a URL asked for whose identifier the mirror is kept for.
-/
structure Kept (quoted : Text → Text) (reposRoot : Text) (asked : List Text) (mirrors : Mirrors)
    : Prop where
  recorded
    : ∀ id record, mirrors.catalog id = some record → record.repoPath = mirrorPath reposRoot id
  fetched
    : ∀ path,
        ∀ url ∈ mirrors.fetched path,
          url ∈ asked
          ∧ ∃ id, repositoryIdFor quoted url = .ok id ∧ path = mirrorPath reposRoot id

theorem mirrorPath_inj {id other : RepositoryId}
    (same : mirrorPath reposRoot id = mirrorPath reposRoot other) : id = other := by
  simp only [mirrorPath, List.append_cancel_left_eq, List.append_cancel_right_eq] at same
  exact Subtype.ext same

theorem none_kept (quoted : Text → Text) (reposRoot : Text)
    : Kept quoted reposRoot [] .none where
  recorded := fun _ _ known => nomatch known
  fetched := fun _ _ member => nomatch member

variable {asked : List Text} {url : Text} {id : RepositoryId}

theorem Kept.pathOf (kept : Kept quoted reposRoot asked mirrors) (id : RepositoryId)
    : mirrors.pathOf reposRoot id = mirrorPath reposRoot id := by
  rw [Mirrors.pathOf]
  split
  · rename_i record known
    exact kept.recorded id record known
  · rfl

theorem Kept.more (kept : Kept quoted reposRoot asked mirrors) (url : Text)
    : Kept quoted reposRoot (asked ++ [url]) mirrors where
  recorded := kept.recorded
  fetched := fun path other member =>
    let ⟨listed, found⟩ := kept.fetched path other member
    ⟨List.mem_append_left _ listed, found⟩

theorem Kept.note (kept : Kept quoted reposRoot asked mirrors) (listed : url ∈ asked)
    (found : repositoryIdFor quoted url = .ok id)
    : Kept quoted reposRoot asked (mirrors.note (mirrorPath reposRoot id) url) where
  recorded := kept.recorded
  fetched := by
    intro path other member
    simp only [Mirrors.note] at member
    split at member
    · rename_i here
      cases List.mem_cons.mp member with
      | inl same =>
          subst same
          exact ⟨listed, id, found, here⟩
      | inr before => exact kept.fetched path other before
    · exact kept.fetched path other member

theorem Kept.create (kept : Kept quoted reposRoot asked mirrors) {record : RepositoryRecord}
    (placed : record.repoPath = mirrorPath reposRoot id)
    : Kept quoted reposRoot asked (mirrors.create id record) where
  recorded := by
    intro other stored known
    simp only [Mirrors.create] at known
    split at known
    · rename_i same
      cases known
      rw [same, placed]
    · exact kept.recorded other stored known
  fetched := kept.fetched

theorem register_mirrors (answers : Answers) (mirrors : Mirrors) (path url : Text)
    (id : RepositoryId) (outcome : FetchOutcome)
    : (register answers mirrors path url id outcome).1 = mirrors
      ∨ ∃ record : RepositoryRecord,
          record.repoPath = path
          ∧ (register answers mirrors path url id outcome).1 = mirrors.create id record := by
  simp only [register]
  split
  · exact .inl rfl
  · exact .inl rfl
  · split
    · split <;> exact .inl rfl
    · split
      · exact .inl rfl
      · exact .inl rfl
      · exact .inl rfl
      · split <;> exact .inr ⟨_, rfl, rfl⟩

/-- One ingest keeps the mirrors apart. -/
theorem ingest_kept (kept : Kept quoted reposRoot asked mirrors) (answers : Answers)
    (listed : url ∈ asked)
    : Kept quoted reposRoot asked (ingest quoted reposRoot answers mirrors url).1 := by
  rw [ingest]
  split
  · exact kept
  · rename_i id found
    split
    · exact kept
    · dsimp only
      split
      · exact kept
      · rw [kept.pathOf id]
        have noted := kept.note listed found
        split
        · exact noted
        · rename_i outcome _
          rcases register_mirrors answers (mirrors.note (mirrorPath reposRoot id) url)
            (mirrorPath reposRoot id) url id outcome with same | ⟨record, placed, same⟩
          · rw [same]
            exact noted
          · rw [same]
            exact noted.create placed

theorem ingestAll_kept (kept : Kept quoted reposRoot asked mirrors)
    (calls : List (Answers × Text))
    : Kept quoted reposRoot (asked ++ calls.map Prod.snd)
        (ingestAll quoted reposRoot mirrors calls) := by
  induction calls generalizing asked mirrors with
  | nil => simpa [ingestAll] using kept
  | cons call calls ih =>
      have step := ingest_kept (kept.more call.2) call.1
        (List.mem_append_right _ (List.mem_singleton_self _))
      have whole := ih step
      rwa [List.append_assoc, List.singleton_append] at whole

end Runs

-- One upstream, one mirror

/-- Two URLs are told apart by their identifiers where the upstreams they name differ, and only
there. URLs of different upstreams are spelled differently, and in two of one upstream a colon
follows a final `.git` in both or in neither.
-/
def Told (url other : Text) : Prop :=
  if upstreamOf url = upstreamOf other then colonTail url = colonTail other
  else spelled (wordsOf url) ≠ spelled (wordsOf other)

/-- Two URLs have one identifier exactly where they name one upstream, exactly where they are told
apart. Over any sequence of ingests of URLs that are told apart, what is fetched into one mirror
comes from one upstream.
-/
theorem mirrors_told_apart (quoted : Text → Text)
    : (∀ url other id idOther,
        repositoryIdFor quoted url = .ok id
        → repositoryIdFor quoted other = .ok idOther
        → ((id = idOther ↔ upstreamOf url = upstreamOf other) ↔ Told url other))
      ∧ ∀ reposRoot (calls : List (Answers × Text)),
          (∀ url ∈ calls.map Prod.snd, ∀ other ∈ calls.map Prod.snd, Told url other)
          → ∀ path,
              ∀ url ∈ (ingestAll quoted reposRoot .none calls).fetched path,
                ∀ other ∈ (ingestAll quoted reposRoot .none calls).fetched path,
                  upstreamOf url = upstreamOf other := by
  constructor
  · intro url other id idOther found foundOther
    rw [Told]
    split
    · rename_i same
      rw [← ids_of_same found foundOther same]
      exact ⟨fun told => told.mpr same, fun one => iff_of_true one same⟩
    · rename_i different
      rw [← (val_of_repositoryIdFor found).1, ← (val_of_repositoryIdFor foundOther).1, ne_eq,
        ← Subtype.ext_iff]
      exact ⟨fun told one => different (told.mp one), fun apart => iff_of_false apart different⟩
  · intro reposRoot calls told path url member other memberOther
    have kept := ingestAll_kept (none_kept quoted reposRoot) calls
    rw [List.nil_append] at kept
    obtain ⟨listed, id, found, here⟩ := kept.fetched path url member
    obtain ⟨listedOther, idOther, foundOther, there⟩ := kept.fetched path other memberOther
    have one : id = idOther := mirrorPath_inj (here.symm.trans there)
    by_contra different
    have apart := told url listed other listedOther
    rw [Told, if_neg different] at apart
    refine apart ?_
    rw [← (val_of_repositoryIdFor found).1, ← (val_of_repositoryIdFor foundOther).1, one]

/-- A project in a subgroup and one whose name joins the two share an identifier. -/
theorem subgroup_shares_mirror
    : ∃ id,
        repositoryIdFor (fun text => text) "https://gitlab.com/acme/app/web".toList = .ok id
        ∧ repositoryIdFor (fun text => text) "https://gitlab.com/acme/app_web".toList = .ok id
        ∧ upstreamOf "https://gitlab.com/acme/app/web".toList
          ≠ upstreamOf "https://gitlab.com/acme/app_web".toList := by
  refine ⟨⟨"gitlab.com_acme_app_web".toList, by decide +kernel⟩, ?_, ?_, ?_⟩
  · decide +kernel
  · decide +kernel
  · decide +kernel

end Gfs.Service
