import Mathlib.Algebra.Ring.Nat
import Mathlib.Data.Option.Basic
import NestedResources.Filter.Compare
import NestedResources.Pattern.Parser

/-!
# What LIKE patterns mean

A pattern describes whole texts, by recursion on its characters (`Like.Matches`). Matching over the
suffixes of the text decides just that (`like_iff_matches`), and so does the search for the regular
expression that a pattern is translated to (`Like.expression_iff_matches`): the translation spells the
items of the pattern one by one, and both matchers keep one flag for each suffix.
-/
namespace NestedResources

namespace Like

/-- Whether a whole text matches a pattern: `%` stands for any run of characters, `_` for any one
character, the character behind a backslash for itself, as does a backslash at the end and every other
character. -/
def Matches : List Char → List Char → Prop
  | [], text => text = []
  | ['\\'], text => text = ['\\']
  | '\\' :: c :: pattern, text => ∃ rest, text = c :: rest ∧ Matches pattern rest
  | '%' :: pattern, text => ∃ run rest, text = run ++ rest ∧ Matches pattern rest
  | '_' :: pattern, text => ∃ c rest, text = c :: rest ∧ Matches pattern rest
  | c :: pattern, text => ∃ rest, text = c :: rest ∧ Matches pattern rest

/-! ## Items -/

/-- The texts that start with what an item stands for and go on as described. -/
def Item.Before (item : Item) (later : List Char → Prop) (text : List Char) : Prop :=
  match item with
  | .anyRun => ∃ run rest, text = run ++ rest ∧ later rest
  | .anyOne => ∃ c rest, text = c :: rest ∧ later rest
  | .literal c => ∃ rest, text = c :: rest ∧ later rest

/-- The texts that a sequence of items describes. -/
def Described (pattern : List Item) : List Char → Prop := pattern.foldr Item.Before (· = [])

theorem matches_iff_described (pattern text : List Char) : Matches pattern text ↔ Described (items pattern) text := by
  induction pattern using items.induct generalizing text with
  | case1 => rfl
  | case2 => simp [Matches, items, Described, Item.Before]
  | case3 c pattern ih => simp only [Matches, items, Described, Item.Before, List.foldr_cons, ih]
  | case4 pattern ih => simp only [Matches, items, Described, Item.Before, List.foldr_cons, ih]
  | case5 pattern ih => simp only [Matches, items, Described, Item.Before, List.foldr_cons, ih]
  | case6 c pattern h₁ h₂ h₃ h₄ ih => simp_all [Matches, items, Described, Item.Before, List.foldr_cons]

/-- Each flag tells whether a suffix is described. -/
inductive Marks (described : List Char → Prop) : List Char → Suffixes → Prop
  | last {flag : Bool} : (flag = true ↔ described []) → Marks described [] [flag]
  | cons {c : Char} {cs : List Char} {flag : Bool} {rest : Suffixes} :
    (flag = true ↔ described (c :: cs)) → Marks described cs rest → Marks described (c :: cs) (flag :: rest)

namespace Marks

variable {described : List Char → Prop} {text : List Char} {flags : Suffixes}

theorem head (h : Marks described text flags) : flags.headD false = true ↔ described text := by
  cases h with
  | last hflag => exact hflag
  | cons hflag _ => exact hflag

theorem length (h : Marks described text flags) : flags.length = text.length + 1 := by
  induction h with
  | last _ => rfl
  | cons _ _ ih => exact congrArg (· + 1) ih

theorem initial : ∀ text : List Char, Marks (· = []) text (Like.initial text)
  | [] => .last (by simp)
  | c :: cs => .cons (by simp) (initial cs)

theorem stepRun (h : Marks described text flags) :
    Marks (Item.anyRun.Before described) text (Like.stepRun flags) := by
  induction h with
  | @last flag hflag =>
    refine .last ?_
    rw [Bool.or_eq_true, hflag]
    constructor
    · rintro (hnow | hlater)
      · exact ⟨[], [], rfl, hnow⟩
      · cases hlater
    · rintro ⟨run, rest, hsplit, hrest⟩
      obtain ⟨-, rfl⟩ := List.append_eq_nil_iff.1 hsplit.symm
      exact .inl hrest
  | @cons c cs flag rest hflag _ ih =>
    refine .cons ?_ ih
    rw [Bool.or_eq_true, hflag, ih.head]
    constructor
    · rintro (hnow | ⟨run, rest, rfl, hrest⟩)
      · exact ⟨[], c :: cs, rfl, hnow⟩
      · exact ⟨c :: run, rest, rfl, hrest⟩
    · rintro ⟨run, rest, hsplit, hrest⟩
      cases run with
      | nil => exact .inl (hsplit ▸ hrest)
      | cons d run =>
        obtain ⟨-, rfl⟩ := List.cons.inj hsplit
        exact .inr ⟨run, rest, rfl, hrest⟩

theorem stepOne (h : Marks described text flags) (accepts : Char → Bool) :
    Marks (fun text => ∃ c rest, text = c :: rest ∧ accepts c = true ∧ described rest) text
      (Like.stepOne accepts text flags) := by
  induction h with
  | last _ => exact .last (by simp)
  | @cons c cs flag rest _ hrest ih =>
    refine .cons ?_ ih
    rw [Bool.and_eq_true, hrest.head]
    constructor
    · rintro ⟨haccepts, hlater⟩
      exact ⟨c, cs, rfl, haccepts, hlater⟩
    · rintro ⟨d, rest, hsplit, haccepts, hlater⟩
      obtain ⟨rfl, rfl⟩ := List.cons.inj hsplit
      exact ⟨haccepts, hlater⟩

theorem congr {other : List Char → Prop} (h : Marks described text flags)
    (hiff : ∀ text, described text ↔ other text) : Marks other text flags := by
  induction h with
  | last hflag => exact .last (hflag.trans (hiff _))
  | cons hflag _ ih => exact .cons (hflag.trans (hiff _)) ih

theorem step (h : Marks described text flags) (item : Item) :
    Marks (item.Before described) text (item.step text flags) := by
  cases item with
  | anyRun => exact h.stepRun
  | anyOne => exact (h.stepOne _).congr fun text => by simp [Item.Before]
  | literal d =>
    refine (h.stepOne _).congr fun text => ⟨?_, ?_⟩
    · rintro ⟨c, rest, rfl, hsame, hrest⟩
      exact ⟨rest, by rw [of_decide_eq_true hsame], hrest⟩
    · rintro ⟨rest, rfl, hrest⟩
      exact ⟨d, rest, rfl, decide_eq_true rfl, hrest⟩

/-- The flags for a sequence of items, from the last item to the first. -/
theorem ofItems (pattern : List Item) (text : List Char) :
    Marks (Described pattern) text (pattern.foldr (Item.step text) (Like.initial text)) := by
  induction pattern with
  | nil => exact initial text
  | cons item rest ih => exact ih.step item

end Marks

end Like

/-- Matching over suffixes decides what a pattern means. -/
theorem like_iff_matches (pattern text : String) :
    like pattern text = true ↔ Like.Matches pattern.toList text.toList := by
  rw [Like.matches_iff_described]
  exact (Like.Marks.ofItems _ _).head

namespace Like

/-! ## The translation -/

/-- A character that means something in regular expressions. -/
def isMeta (c : Char) : Bool :=
  c ∈ ['\\', '.', '+', '*', '?', '(', ')', '|', '[', ']', '\x7B', '\x7D', '^', '$', '#', '&', '-', '~']

/-- A regular expression for one character. -/
def escape (c : Char) : List Char := if isMeta c then ['\\', c] else [c]

/-- The regular expression for the characters of a pattern; `escaped` says that a backslash stands
before them. -/
def translate : Bool → List Char → List Char
  | true, [] => escape '\\'
  | false, [] => []
  | true, c :: cs => escape c ++ translate false cs
  | false, c :: cs =>
    if c = '\\' then translate true cs
    else if c = '%' then '.' :: '*' :: translate false cs
    else if c = '_' then '.' :: translate false cs
    else escape c ++ translate false cs

/-- The regular expression that a pattern is translated to. Its dot stands for line breaks too. -/
def expression (pattern : String) : String :=
  String.ofList ("(?s)^".toList ++ translate false pattern.toList ++ ['$'])

/-- What an item is translated to. -/
def Item.source : Item → List Char
  | .anyRun => ['.', '*']
  | .anyOne => ['.']
  | .literal c => escape c

theorem translate_eq_source (pattern : List Char) :
    translate false pattern = (items pattern).flatMap Item.source := by
  induction pattern using items.induct with
  | case1 => rfl
  | case2 => rfl
  | case3 c pattern ih => simp [translate, items, Item.source, ih]
  | case4 pattern ih => simp [translate, items, Item.source, ih]
  | case5 pattern ih => simp [translate, items, Item.source, ih]
  | case6 c pattern h₁ h₂ h₃ h₄ ih =>
    have hplain : c ≠ '\\' := by
      rintro rfl
      cases pattern with
      | nil => exact h₁ rfl rfl
      | cons d rest => exact h₂ d rest rfl rfl
    rw [translate, if_neg hplain, if_neg h₃, if_neg h₄, ih]
    simp [items, Item.source]

/-! ## Reading the translation -/

/-- What the translation of an item is read as. -/
def Item.expression : Item → Pattern
  | .anyRun => .repeated 0 none (.one .everything)
  | .anyOne => .one .everything
  | .literal c => .one (.single c)

theorem escape?_of_isMeta {c : Char} (h : isMeta c = true) (f : Pattern.Flags) (rest : List Char) :
    Pattern.escape? f (c :: rest) = some (.literal c, rest) := by
  simp only [isMeta, List.mem_cons, List.not_mem_nil, or_false, decide_eq_true_eq] at h
  rcases h with rfl | rfl | rfl | rfl | rfl | rfl | rfl | rfl | rfl | rfl | rfl | rfl | rfl | rfl | rfl | rfl |
    rfl | rfl <;> rfl

/-- The switches that the translation starts with. -/
def switches : Pattern.Flags := { dotAll := true }

section Steps

variable (rest : List Char) (fuel depth : Nat) (names : List String) (done : List Pattern)
  (parts : List (Option Pattern))

theorem group?_switches : Pattern.group? (fuel + 1) depth {} names done parts ('(' :: '?' :: 's' :: ')' :: rest) =
    Pattern.group? fuel depth switches names done (none :: parts) rest := rfl

theorem group?_start : Pattern.group? (fuel + 1) depth switches names done parts ('^' :: rest) =
    Pattern.group? fuel depth switches names done (some (.anchor .textStart) :: parts) rest := rfl

theorem group?_stop : Pattern.group? (fuel + 1) depth switches names done parts ('$' :: rest) =
    Pattern.group? fuel depth switches names done (some (.anchor .textEnd) :: parts) rest := rfl

theorem group?_end : Pattern.group? (fuel + 1) depth switches names [] parts [] =
    some (Pattern.seqAll (parts.reverse.filterMap id), names, []) := rfl

end Steps

/-- The number of steps that the reader takes for an item. -/
def Item.steps : Item → Nat
  | .anyRun => 2
  | _ => 1

theorem group?_literal (c : Char) (rest : List Char) (fuel depth : Nat) (names : List String)
    (done : List Pattern) (parts : List (Option Pattern)) :
    Pattern.group? (fuel + 1) depth switches names done parts (escape c ++ rest) =
      Pattern.group? fuel depth switches names done (some (.one (.single c)) :: parts) rest := by
  cases h : isMeta c with
  | true =>
    rw [escape, if_pos h, List.cons_append, List.cons_append, List.nil_append, Pattern.group?]
    dsimp only [Pattern.skip, switches]
    simp only [Bool.false_eq_true, ↓reduceIte, ↓Char.isValue, escape?_of_isMeta h, Option.bind_eq_bind,
      Option.bind_some]
    rfl
  | false =>
    rw [escape, if_neg (by simp [h]), List.cons_append, List.nil_append]
    simp only [isMeta, List.mem_cons, List.not_mem_nil, or_false, decide_eq_false_iff_not, not_or] at h
    simp only [Pattern.group?, Pattern.skip, switches, Bool.false_eq_true, ↓reduceIte, ↓Char.isValue, h, imp_self,
      Pattern.repetition?, List.cons.injEq, false_and, implies_true, Option.bind_eq_bind, Option.bind_some]
    rfl

/-- A mark of a lazy repetition is a character that is escaped. -/
theorem dropLazy_eq_self {cs : List Char} (h : cs.head? ≠ some '?') : Pattern.dropLazy cs = cs := by
  unfold Pattern.dropLazy
  split
  · exact absurd rfl h
  · rfl

theorem head?_source (item : Item) (rest : List Char) : (item.source ++ rest).head? ≠ some '?' := by
  cases item with
  | anyRun => simp [Item.source]
  | anyOne => simp [Item.source]
  | literal c =>
    cases h : isMeta c with
    | true => simp [Item.source, escape, h]
    | false =>
      intro hhead
      rw [Item.source, escape, if_neg (by simp [h])] at hhead
      obtain rfl := Option.some.inj hhead
      cases h

/-- The reader takes the translation of an item for its expression. -/
theorem group?_source (item : Item) {rest : List Char} (hrest : rest.head? ≠ some '?') (fuel depth : Nat)
    (names : List String) (done : List Pattern) (parts : List (Option Pattern)) :
    Pattern.group? (fuel + item.steps) depth switches names done parts (item.source ++ rest) =
      Pattern.group? fuel depth switches names done (some item.expression :: parts) rest := by
  cases item with
  | anyRun =>
    have hdot : Pattern.group? (fuel + 1 + 1) depth switches names done parts ('.' :: '*' :: rest) =
        Pattern.group? (fuel + 1) depth switches names done (some (.one .everything) :: parts) ('*' :: rest) := rfl
    have hstar : Pattern.group? (fuel + 1) depth switches names done (some (.one .everything) :: parts)
          ('*' :: rest) =
        Pattern.group? fuel depth switches names done (some Item.anyRun.expression :: parts)
          (Pattern.dropLazy rest) := rfl
    rw [dropLazy_eq_self hrest] at hstar
    exact hdot.trans hstar
  | anyOne => rfl
  | literal c => exact group?_literal c rest fuel depth names done parts

theorem head?_sources (pattern : List Item) {rest : List Char} (hrest : rest.head? ≠ some '?') :
    (pattern.flatMap Item.source ++ rest).head? ≠ some '?' := by
  cases pattern with
  | nil => exact hrest
  | cons item pattern =>
    rw [List.flatMap_cons, List.append_assoc]
    exact head?_source item _

theorem group?_sources (pattern : List Item) {rest : List Char} (hrest : rest.head? ≠ some '?')
    (fuel depth : Nat) (names : List String) (done : List Pattern) (parts : List (Option Pattern)) :
    Pattern.group? (fuel + (pattern.map Item.steps).sum) depth switches names done parts
        (pattern.flatMap Item.source ++ rest) =
      Pattern.group? fuel depth switches names done
        ((pattern.map fun item => some item.expression).reverse ++ parts) rest := by
  induction pattern generalizing parts with
  | nil => rfl
  | cons item pattern ih =>
    rw [List.map_cons, List.sum_cons, Nat.add_left_comm, Nat.add_comm item.steps, List.flatMap_cons,
      List.append_assoc, group?_source item (head?_sources pattern hrest), ih, List.map_cons,
      List.reverse_cons, List.append_assoc, List.singleton_append]

/-- What the translation of a pattern is read as. -/
def regular (pattern : List Item) : Pattern :=
  Pattern.seqAll (.anchor .textStart :: pattern.map Item.expression ++ [.anchor .textEnd])

theorem steps_le_length (item : Item) : item.steps ≤ item.source.length := by
  cases item with
  | anyRun => exact Nat.le_refl 2
  | anyOne => exact Nat.le_refl 1
  | literal c =>
    rw [Item.source, escape]
    split <;> simp [Item.steps]

theorem sum_steps_le (pattern : List Item) :
    (pattern.map Item.steps).sum ≤ (pattern.flatMap Item.source).length := by
  induction pattern with
  | nil => exact Nat.le_refl 0
  | cons item pattern ih =>
    rw [List.map_cons, List.sum_cons, List.flatMap_cons, List.length_append]
    exact Nat.add_le_add (steps_le_length item) ih

theorem toList_expression (pattern : String) : (expression pattern).toList =
    '(' :: '?' :: 's' :: ')' :: '^' :: ((items pattern.toList).flatMap Item.source ++ ['$']) := by
  have hopening : "(?s)^".toList = ['(', '?', 's', ')', '^'] := by decide
  unfold expression
  rw [String.toList_ofList, translate_eq_source, hopening, List.append_assoc]
  rfl

/-- The reader takes the translation of a pattern for its expression. -/
theorem group?_expression (pattern : String) :
    Pattern.group? ((expression pattern).toList.length + 1) 0 {} [] [] [] (expression pattern).toList =
      some (regular (items pattern.toList), [], []) := by
  rw [toList_expression]
  generalize items pattern.toList = parts
  -- Each item takes no more steps than characters, so the fuel suffices.
  obtain ⟨spare, hspare⟩ : ∃ spare, (parts.flatMap Item.source).length = spare + (parts.map Item.steps).sum :=
    ⟨_, (Nat.sub_add_cancel (sum_steps_le parts)).symm⟩
  have hfuel : ('(' :: '?' :: 's' :: ')' :: '^' :: (parts.flatMap Item.source ++ ['$'])).length + 1 =
      spare + 3 + 1 + 1 + (parts.map Item.steps).sum + 1 + 1 := by
    simp only [List.length_cons, List.length_append, List.length_nil]
    omega
  have hstop : List.head? ['$'] ≠ some '?' := by decide
  rw [hfuel, group?_switches, group?_start, group?_sources parts hstop, group?_stop, group?_end, regular]
  simp

theorem expandedSize_regular (parts : List Item) :
    (regular parts).expandedSize = (parts.map Item.steps).sum + 3 := by
  have hitems : ∀ parts : List Item,
      (Pattern.seqAll (parts.map Item.expression ++ [.anchor .textEnd])).expandedSize =
        (parts.map Item.steps).sum + 2 := by
    intro parts
    induction parts with
    | nil => rfl
    | cons item parts ih =>
      have hitem : item.expression.expandedSize = item.steps := by cases item <;> rfl
      rw [List.map_cons, List.cons_append, List.map_cons, List.sum_cons, Nat.add_assoc, ← ih, ← hitem]
      rfl
  have hstart : (regular parts).expandedSize =
      1 + (Pattern.seqAll (parts.map Item.expression ++ [.anchor .textEnd])).expandedSize := rfl
  rw [hstart, hitems]
  omega

/-- The translation of a pattern is an expression, unless it is too large. -/
theorem parse?_expression (pattern : String) : Pattern.parse? (expression pattern) =
    if ((items pattern.toList).map Item.steps).sum + 3 ≤ Pattern.greatestSize then
      some (regular (items pattern.toList))
    else none := by
  unfold Pattern.parse?
  dsimp only
  rw [group?_expression]
  dsimp only [bind, Option.bind]
  rw [expandedSize_regular]
  by_cases h : ((items pattern.toList).map Item.steps).sum + 3 ≤ Pattern.greatestSize
  · rw [if_pos h, decide_eq_true h]
    rfl
  · rw [if_neg h, decide_eq_false h]
    rfl

/-! ## Searching for the translation -/

section Search

variable {text : List Char} {before : Option Char} {flags : Suffixes}

theorem length_placesOf (before : Option Char) (text : List Char) :
    (Pattern.placesOf before text).length = text.length + 1 := by
  induction text generalizing before with
  | nil => rfl
  | cons c cs ih => rw [Pattern.placesOf, List.length_cons, ih, List.length_cons]

/-- A step over one character is the same for places as for suffixes. -/
theorem stepOne_placesOf (set : CharSet) (hlength : flags.length = text.length + 1) :
    Pattern.stepOne set (Pattern.placesOf before text) flags =
      stepOne (fun c => set.contains c) text flags := by
  induction text generalizing before flags with
  | nil =>
    obtain ⟨flag, rfl⟩ := List.length_eq_one_iff.1 hlength
    rfl
  | cons c cs ih =>
    cases flags with
    | nil => cases hlength
    | cons flag rest =>
      rw [Pattern.placesOf, Pattern.stepOne, stepOne, ih (Nat.succ.inj hlength)]
      rfl

theorem length_stepOne (accepts : Char → Bool) (hlength : flags.length = text.length + 1) :
    (stepOne accepts text flags).length = text.length + 1 := by
  induction text generalizing flags with
  | nil => rfl
  | cons c cs ih =>
    cases flags with
    | nil => cases hlength
    | cons flag rest => rw [stepOne, List.length_cons, ih (Nat.succ.inj hlength), List.length_cons]

theorem length_stepRun (flags : Suffixes) : (stepRun flags).length = flags.length := by
  induction flags with
  | nil => rfl
  | cons flag rest ih => rw [stepRun, List.length_cons, ih, List.length_cons]

theorem length_step (item : Item) (hlength : flags.length = text.length + 1) :
    (item.step text flags).length = text.length + 1 := by
  cases item with
  | anyRun => exact (length_stepRun flags).trans hlength
  | anyOne => exact length_stepOne _ hlength
  | literal c => exact length_stepOne _ hlength

/-- Some steps over characters reach what one run reaches, if they are as many as the suffixes. -/
theorem upTo_eq_stepRun (n : Nat) (hlength : flags.length = text.length + 1) (hn : text.length ≤ n) :
    Pattern.upTo (stepOne (fun _ => true) text) n flags = stepRun flags := by
  induction text generalizing flags n with
  | nil =>
    obtain ⟨flag, rfl⟩ := List.length_eq_one_iff.1 hlength
    have hstays : ∀ n, Pattern.upTo (stepOne (fun _ => true) []) n [flag] = [flag] := by
      intro n
      induction n with
      | zero => rfl
      | succ n ih =>
        rw [Pattern.upTo, ih]
        simp [stepOne, Pattern.both]
    rw [hstays]
    simp [stepRun]
  | cons c cs ih =>
    cases flags with
    | nil => cases hlength
    | cons flag rest =>
      have hrest : rest.length = cs.length + 1 := Nat.succ.inj hlength
      -- The first flag is set by a step from the second one of the round before.
      have hround : ∀ n, Pattern.upTo (stepOne (fun _ => true) (c :: cs)) (n + 1) (flag :: rest) =
          (flag || (Pattern.upTo (stepOne (fun _ => true) cs) n rest).headD false) ::
            Pattern.upTo (stepOne (fun _ => true) cs) (n + 1) rest := by
        intro n
        induction n with
        | zero => simp [Pattern.upTo, stepOne, Pattern.both]
        | succ n ihn =>
          rw [Pattern.upTo, ihn, stepOne, Pattern.both, List.zipWith_cons_cons, Bool.true_and]
          rfl
      obtain ⟨m, rfl⟩ := Nat.exists_eq_add_of_le' (Nat.le_trans (Nat.succ_le_succ (Nat.zero_le _)) hn)
      rw [hround, ih m hrest (Nat.le_of_succ_le_succ hn), ih (m + 1) hrest (Nat.le_of_succ_le hn), stepRun]

theorem upTo_placesOf (n : Nat) (hlength : flags.length = text.length + 1) :
    Pattern.upTo (Pattern.stepOne .everything (Pattern.placesOf before text)) n flags =
        Pattern.upTo (stepOne (fun _ => true) text) n flags ∧
      (Pattern.upTo (stepOne (fun _ => true) text) n flags).length = text.length + 1 := by
  induction n with
  | zero => exact ⟨rfl, hlength⟩
  | succ n ih =>
    rw [Pattern.upTo, Pattern.upTo, ih.1, stepOne_placesOf _ ih.2]
    refine ⟨rfl, ?_⟩
    rw [Pattern.both, List.length_zipWith, length_stepOne _ ih.2, hlength, Nat.min_self]

theorem contains_single (c d : Char) : (CharSet.single c).contains d = decide (d = c) := by
  rw [CharSet.single, CharSet.contains, ← Bool.decide_and, decide_eq_decide]
  exact ⟨fun h => Char.le_antisymm h.2 h.1, fun h => h ▸ ⟨Char.le_refl d, Char.le_refl d⟩⟩

/-- Searching for what an item is read as is matching over suffixes. -/
theorem reach_item (item : Item) (hlength : flags.length = text.length + 1) :
    Pattern.reach (Pattern.placesOf before text) item.expression flags = item.step text flags := by
  cases item with
  | anyRun =>
    refine (upTo_placesOf _ hlength).1.trans (upTo_eq_stepRun _ hlength ?_)
    rw [length_placesOf]
    exact Nat.le_succ _
  | anyOne => exact stepOne_placesOf .everything hlength
  | literal c =>
    rw [Item.expression, Pattern.reach, stepOne_placesOf _ hlength, Item.step]
    exact congrArg (stepOne · text flags) (funext fun d => contains_single c d)

/-- At the end of the text stands the empty suffix. -/
theorem reach_textEnd (before : Option Char) (text : List Char) :
    Pattern.reach (Pattern.placesOf before text) (.anchor .textEnd)
      ((Pattern.placesOf before text).map fun _ => true) = initial text := by
  induction text generalizing before with
  | nil => rfl
  | cons c cs ih => exact congrArg (false :: ·) (ih (some c))

/-- At the start of the text stands the whole text. -/
theorem any_reach_textStart (hlength : flags.length = text.length + 1) :
    (Pattern.reach (Pattern.placesOf none text) (.anchor .textStart) flags).any id = flags.headD false := by
  have hlater : ∀ (text : List Char) (c : Char) (flags : Suffixes),
      (List.zipWith (fun p flag => Anchor.textStart.holds p && flag) (Pattern.placesOf (some c) text) flags).any id =
        false := by
    intro text
    induction text with
    | nil =>
      intro c flags
      cases flags <;> simp [Pattern.placesOf, Anchor.holds]
    | cons d text ih =>
      intro c flags
      cases flags with
      | nil => rfl
      | cons flag rest =>
        rw [Pattern.placesOf, List.zipWith_cons_cons, List.any_cons, ih]
        rfl
  cases flags with
  | nil => cases hlength
  | cons flag rest =>
    cases text with
    | nil =>
      obtain rfl := List.eq_nil_of_length_eq_zero (Nat.succ.inj hlength)
      simp [Pattern.placesOf, Pattern.reach, Anchor.holds]
    | cons c cs =>
      rw [Pattern.placesOf, Pattern.reach, List.zipWith_cons_cons, List.any_cons, hlater, Bool.or_false]
      rfl

theorem reach_seqAll (places : List Place) (parts : List Pattern) (flags : Pattern.Places) :
    Pattern.reach places (Pattern.seqAll parts) flags = parts.foldr (Pattern.reach places) flags := by
  induction parts with
  | nil => rfl
  | cons p parts ih => exact congrArg (Pattern.reach places p) ih

end Search

/-- What the translation is read as occurs in a text if and only if the items describe the text. -/
theorem regular_occursIn (parts : List Item) (text : String) :
    (regular parts).occursIn text = accepts parts text.toList := by
  have hitems : ∀ parts : List Item,
      (parts.map Item.expression).foldr (Pattern.reach (Pattern.placesOf none text.toList)) (initial text.toList) =
          parts.foldr (Item.step text.toList) (initial text.toList) ∧
        (parts.foldr (Item.step text.toList) (initial text.toList)).length = text.toList.length + 1 := by
    intro parts
    induction parts with
    | nil => exact ⟨rfl, (Marks.initial _).length⟩
    | cons item parts ih =>
      rw [List.map_cons, List.foldr_cons, List.foldr_cons, ih.1]
      exact ⟨reach_item item ih.2, length_step item ih.2⟩
  unfold Pattern.occursIn
  dsimp only
  rw [regular, reach_seqAll, List.cons_append, List.foldr_cons, List.foldr_append, List.foldr_cons, List.foldr_nil,
    reach_textEnd, (hitems parts).1, any_reach_textStart (hitems parts).2, accepts]

end Like

/-- LIKE means what its reference semantics says. The regular expression that a pattern is translated to,
whenever it is one, occurs in just the texts that match the pattern; so it is for the matcher over
suffixes, and a filter by LIKE is passed by the stored texts that match. -/
theorem like_means (pattern text : String) :
    (∀ regular, Pattern.parse? (Like.expression pattern) = some regular →
      (regular.occursIn text = true ↔ Like.Matches pattern.toList text.toList)) ∧
    (like pattern text = true ↔ Like.Matches pattern.toList text.toList) ∧
    ∀ (type : FieldType) (stored : Option Json), Operator.like.holds type stored (.str pattern) = true ↔
      ∃ s, stored = some (.str s) ∧ Like.Matches pattern.toList s.toList := by
  refine ⟨fun regular hregular => ?_, like_iff_matches pattern text, fun type stored => ?_⟩
  · rw [Like.parse?_expression, Option.ite_none_right_eq_some] at hregular
    obtain ⟨-, hregular⟩ := hregular
    cases hregular
    rw [Like.regular_occursIn]
    exact like_iff_matches pattern text
  · constructor
    · intro hholds
      cases stored with
      | none => cases hholds
      | some v =>
        cases v with
        | str s => exact ⟨s, rfl, (like_iff_matches pattern s).1 hholds⟩
        | _ => cases hholds
    · rintro ⟨s, rfl, hmatches⟩
      exact (like_iff_matches pattern s).2 hmatches

namespace Music

def rock : String := "%Rock_n%"

/-- The pattern is translated to an expression that occurs in one title and not in the other. -/
theorem rock_means : ∃ regular, Pattern.parse? (Like.expression rock) = some regular ∧
    regular.occursIn "Hard Rock'n Roll" = true ∧ regular.occursIn "rock'n roll" = false := by
  have hparse : Pattern.parse? (Like.expression rock) = some (Like.regular (Like.items rock.toList)) := by
    rw [Like.parse?_expression, if_pos (by decide +kernel)]
  have hhard := like_means rock "Hard Rock'n Roll"
  have hsoft := like_means rock "rock'n roll"
  refine ⟨_, hparse, (hhard.1 _ hparse).2 (hhard.2.1.1 (by decide +kernel)), ?_⟩
  rw [Bool.eq_false_iff]
  intro hoccurs
  exact absurd (hsoft.2.1.2 ((hsoft.1 _ hparse).1 hoccurs)) (by decide +kernel)

end Music

end NestedResources
