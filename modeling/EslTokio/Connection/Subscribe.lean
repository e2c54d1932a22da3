import Mathlib.Data.List.TakeWhile
import Mathlib.Data.Set.Lattice
import Mathlib.Order.CompletePartialOrder
import EslTokio.Command.Wire
import EslTokio.Event.Subscription

/-!
# Changing a subscription

`apply_subscription` and `resubscribe_from` of `src/connection/client.rs`, as the commands they
send, against a server that keeps the subscribed event types, the custom subclasses and the filters.

The difference of two subscriptions is taken list by list: typed events, raw names and subclasses
are compared entry by entry, each with its own kind, while the server knows an event by its name
alone.

* `resubscribeFrom` — the commands, for any order in which the dropped types are iterated.
* `Server.step`, `Server.run` — what the commands do; `listedTypes` and `listedSubclasses` are the
  grammar of the `event` and `nixevent` token lists.
* `CleanDiff` — nothing dropped is named by the new subscription, and what it does not name was
  dropped.
* **`resubscribe_iff_cleanDiff`** — when a resubscription reaches its target without a gap.
-/

namespace EslTokio

open Library

/-! ### The commands -/

/-- The `event` command of a subscription, if it subscribes to anything. -/
def sendSubscriptionEvents (sub : EventSubscription) : List EslCommand :=
  match sub.toEventString with
  | some eventsStr => [.events sub.format.asStr.toList eventsStr]
  | none => []

/-- One `filter` command for each pair. -/
def applyFilters (filters : List (Text × Text)) : List EslCommand :=
  filters.map fun entry => .filter entry.1 entry.2

/-- The commands of `apply_subscription`. -/
def applySubscription (sub : EventSubscription) : List EslCommand :=
  applyFilters sub.filters ++ sendSubscriptionEvents sub

/-- `nixevent` for event types; nothing is sent for none. -/
def nixeventTypes (removedTypes : List EslEventType) : List EslCommand :=
  if removedTypes = [] then []
  else
    [.nixEvent ([' '].intercalate
      (orderEventTokens (removedTypes.map fun eventType => eventType.asStr.toList) []))]

/-- The strings present in `old` but absent from `new`. -/
def strDiff (old new : List Text) : List Text := old.filter fun text => text ∉ new

/-- `nixevent` for the strings present in `old` but absent from `new`, behind a prefix. -/
def nixeventStrDiff (old new : List Text) (start : Text) : List EslCommand :=
  let removed := strDiff old new
  if removed = [] then [] else [.nixEvent (start ++ [' '].intercalate removed)]

/-- The commands of `resubscribe_from`, the dropped types in the order they are iterated. -/
def resubscribeFrom (old new : EventSubscription) (removedTypes : List EslEventType) :
    List EslCommand :=
  sendSubscriptionEvents new ++
    .filterDeleteAll :: applyFilters new.filters ++
    nixeventTypes removedTypes ++
    nixeventStrDiff old.rawEvents new.rawEvents [] ++
    nixeventStrDiff old.customSubclasses new.customSubclasses "CUSTOM ".toList

/-- An iteration of the set of types that are in `old` and not in `new`. -/
def IteratesDifference (old new : EventSubscription) (removedTypes : List EslEventType) : Prop :=
  removedTypes.Nodup ∧ ∀ eventType, eventType ∈ removedTypes ↔
    eventType ∈ old.events ∧ eventType ∉ new.events

/-! ### The server -/

/-- What the server does with the `CUSTOM` token itself, which introduces subclasses: whether
`event` enables the type of that name, and whether `nixevent` disables it. -/
structure CustomRule where
  onEvent : Bool
  onNix : Bool
deriving DecidableEq, Repr

/-- The tokens of a list, split at spaces. -/
def spaceTokens (list : Text) : List Text := (list.splitOn ' ').filter (· ≠ [])

/-- The tokens up to the first `CUSTOM`. -/
def typeTokens (tokens : List Text) : List Text := tokens.takeWhile fun token =>
    !isCustomToken token

/-- The tokens behind the first `CUSTOM`. -/
def subclassTokens (tokens : List Text) : List Text :=
  (tokens.dropWhile fun token => !isCustomToken token).tail

/-- The types a token list names, ignoring case; `ALL` names every type. -/
def listedTypes (customIsType : Bool) (tokens : List Text) : Set Text :=
  {name | (∃ token ∈ typeTokens tokens, Text.toAsciiLowercase token = name ∨
      Text.toAsciiLowercase token = "all".toList) ∨
    customIsType = true ∧ name = Text.toAsciiLowercase customToken ∧
      ∃ token ∈ tokens, isCustomToken token = true}

/-- The subclasses a token list names. -/
def listedSubclasses (tokens : List Text) : Set Text := {name | name ∈ subclassTokens tokens}

/-- The subscriptions a server holds for one client. -/
structure Server where
  types : Set Text
  subclasses : Set Text
  filters : List (Text × Text)

namespace Server

/-- A client that has sent nothing yet. -/
def fresh : Server := ⟨∅, ∅, []⟩

/-- What one command does to the subscriptions. -/
def step (rule : CustomRule) (s : Server) : EslCommand → Server
  | .events _ list => { s with
      types := s.types ∪ listedTypes rule.onEvent (spaceTokens list)
      subclasses := s.subclasses ∪ listedSubclasses (spaceTokens list) }
  | .nixEvent list => { s with
      types := s.types \ listedTypes rule.onNix (spaceTokens list)
      subclasses := s.subclasses \ listedSubclasses (spaceTokens list) }
  | .noEvents => { s with types := ∅, subclasses := ∅ }
  | .filter header value => { s with filters := s.filters ++ [(header, value)] }
  | .filterDeleteAll => { s with filters := [] }
  | .filterDelete header value =>
      if header = "all".toList then { s with filters := [] }
      else { s with filters := s.filters.filter fun entry =>
        entry.1 ≠ header ∨ value.any (entry.2 ≠ ·) }
  | _ => s

/-- What a list of commands does, in order. -/
def run (rule : CustomRule) (s : Server) (commands : List EslCommand) : Server :=
  commands.foldl (step rule) s

/-- Everything one server has subscribed, the other has too. -/
def Covers (s want : Server) : Prop := want.types ⊆ s.types ∧ want.subclasses ⊆ s.subclasses

end Server

/-- What a subscription leaves on a fresh server. -/
def subscribed (rule : CustomRule) (sub : EventSubscription) : Server :=
  Server.fresh.run rule (applySubscription sub)

/-- A resubscription reaches its target without a gap: behind its first command the new subscription
is covered in every state, and the last state is that of the new subscription on a fresh server. -/
def ReachesWithoutGap (rule : CustomRule) (old new : EventSubscription)
    (commands : List EslCommand) : Prop :=
  (∀ count, 1 ≤ count → count ≤ commands.length →
    ((subscribed rule old).run rule (commands.take count)).Covers (subscribed rule new)) ∧
  (subscribed rule old).run rule commands = subscribed rule new

/-! ### The condition -/

/-- The tokens of the `nixevent` commands, one list for each kind of entry that `old` has and `new`
has not. -/
def droppedTokens (old new : EventSubscription) : List (List Text) :=
  [orderEventTokens ((old.events.filter (· ∉ new.events)).map fun eventType =>
      eventType.asStr.toList) [],
    strDiff old.rawEvents new.rawEvents,
    orderEventTokens [] (strDiff old.customSubclasses new.customSubclasses)]

/-- The types that entries of `old` absent from `new` name. -/
def droppedTypes (rule : CustomRule) (old new : EventSubscription) : Set Text :=
  {name | ∃ tokens ∈ droppedTokens old new, name ∈ listedTypes rule.onNix tokens}

/-- The subclasses that entries of `old` absent from `new` name. -/
def droppedSubclasses (old new : EventSubscription) : Set Text :=
  {name | ∃ tokens ∈ droppedTokens old new, name ∈ listedSubclasses tokens}

/-- No entry that is dropped names what the new subscription names, and what the old one names is
named by the new one or dropped. -/
structure CleanDiff (rule : CustomRule) (old new : EventSubscription) : Prop where
  types_disjoint : Disjoint (droppedTypes rule old new) (listedTypes rule.onEvent new.eventTokens)
  subclasses_disjoint : Disjoint (droppedSubclasses old new) (listedSubclasses new.eventTokens)
  types_covered : listedTypes rule.onEvent old.eventTokens ⊆
    listedTypes rule.onEvent new.eventTokens ∪ droppedTypes rule old new
  subclasses_covered : listedSubclasses old.eventTokens ⊆
    listedSubclasses new.eventTokens ∪ droppedSubclasses old new

/-! ### Tokens on the wire -/

/-- One token of an event list. -/
def IsToken (text : Text) : Prop := text ≠ [] ∧ ' ' ∉ text

/-- A joined list of tokens splits into these tokens. -/
theorem spaceTokens_intercalate {tokens : List Text} (h : ∀ token ∈ tokens, IsToken token) :
    spaceTokens ([' '].intercalate tokens) = tokens := by
  cases tokens with
  | nil => decide
  | cons token tokens =>
      rw [spaceTokens, List.splitOn_intercalate ' ' (fun other hother => (h other hother).2)
        (List.cons_ne_nil _ _)]
      exact List.filter_eq_self.mpr fun other hother => by simpa using (h other hother).1

/-- Decided on the bytes, which the kernel reads off a literal without decoding it. -/
theorem isToken_asStr (eventType : EslEventType) : IsToken eventType.asStr.toList := by
  have hbytes : eventType.asStr.toUTF8.data.toList ≠ [] ∧
      0x20 ∉ eventType.asStr.toUTF8.data.toList := by
    cases eventType
    all_goals decide +kernel
  rw [← encode_toList] at hbytes
  refine ⟨fun hnil => hbytes.1 ?_, fun hspace => hbytes.2 ?_⟩
  · rw [hnil, Utf8.encode_nil]
  · exact List.mem_flatMap.mpr ⟨' ', hspace, by decide⟩

theorem isToken_orderEventTokens {names subclasses : List Text}
    (hnames : ∀ name ∈ names, IsToken name)
    (hsubclasses : ∀ subclass ∈ subclasses, IsToken subclass) :
    ∀ token ∈ orderEventTokens names subclasses, IsToken token := by
  have hkept : ∀ name ∈ names.filter fun name => !isCustomToken name, IsToken name :=
    fun name hname => hnames name (List.mem_of_mem_filter hname)
  have hcustom : IsToken customToken := by
    refine ⟨?_, ?_⟩
    all_goals decide
  intro token htoken
  simp only [orderEventTokens] at htoken
  split at htoken
  · rcases List.mem_append.mp htoken with htoken | htoken
    · exact hkept token htoken
    · rcases List.mem_cons.mp htoken with rfl | htoken
      · exact hcustom
      · exact hsubclasses token htoken
  · exact hkept token htoken

theorem EventSubscription.isToken_raw (sub : EventSubscription) :
    ∀ name ∈ sub.rawEvents, IsToken name :=
  fun name hname => validateWireToken_token (sub.raw_valid name hname)

theorem EventSubscription.isToken_subclass (sub : EventSubscription) :
    ∀ subclass ∈ sub.customSubclasses, IsToken subclass :=
  fun subclass hsubclass => validateWireToken_token (sub.subclass_valid subclass hsubclass)

theorem EventSubscription.isToken_eventTokens (sub : EventSubscription) :
    ∀ token ∈ sub.eventTokens, IsToken token := by
  rw [eventTokens]
  split
  · intro token htoken
    rw [List.mem_singleton.mp htoken]
    refine ⟨?_, ?_⟩
    all_goals decide
  · refine isToken_orderEventTokens ?_ sub.isToken_subclass
    intro name hname
    rcases List.mem_append.mp hname with hname | hname
    · obtain ⟨eventType, -, rfl⟩ := List.mem_map.mp hname
      exact isToken_asStr eventType
    · exact sub.isToken_raw name hname

theorem isToken_strDiff {old new : List Text} (h : ∀ text ∈ old, IsToken text) :
    ∀ text ∈ strDiff old new, IsToken text :=
  fun text htext => h text (List.mem_of_mem_filter htext)

/-! ### What the commands do -/

@[simp] theorem listedTypes_nil (customIsType : Bool) : listedTypes customIsType [] = ∅ := by
  simp [listedTypes, typeTokens]

@[simp] theorem listedSubclasses_nil : listedSubclasses [] = ∅ := by
  simp [listedSubclasses, subclassTokens]

/-- Without `CUSTOM` a list names the types its tokens spell. -/
theorem mem_listedTypes_of_not_custom {customIsType : Bool} {tokens : List Text} {name : Text}
    (h : ∀ token ∈ tokens, isCustomToken token = false) :
    name ∈ listedTypes customIsType tokens ↔ ∃ token ∈ tokens,
      Text.toAsciiLowercase token = name ∨ Text.toAsciiLowercase token = "all".toList := by
  have hall : typeTokens tokens = tokens :=
    List.takeWhile_eq_self_iff.mpr fun token htoken => by rw [h token htoken]; rfl
  rw [listedTypes, Set.mem_ofPred_eq, hall]
  refine or_iff_left ?_
  rintro ⟨-, -, token, htoken, hcustom⟩
  rw [h token htoken] at hcustom
  cases hcustom

theorem listedSubclasses_of_not_custom {tokens : List Text}
    (h : ∀ token ∈ tokens, isCustomToken token = false) : listedSubclasses tokens = ∅ := by
  have hnone : subclassTokens tokens = [] := by
    rw [subclassTokens, List.dropWhile_eq_nil_iff.mpr fun token htoken => by
      rw [h token htoken]; rfl]
    rfl
  simp [listedSubclasses, hnone]

/-- Tokens that are neither `CUSTOM` nor `ALL` name themselves, in lower case. -/
theorem listedTypes_of_plain (customIsType : Bool) {tokens : List Text}
    (hcustom : ∀ token ∈ tokens, isCustomToken token = false)
    (hall : ∀ token ∈ tokens, Text.toAsciiLowercase token ≠ "all".toList) :
    listedTypes customIsType tokens = {name | name ∈ tokens.map Text.toAsciiLowercase} := by
  ext name
  rw [mem_listedTypes_of_not_custom hcustom, Set.mem_ofPred_eq, List.mem_map]
  constructor
  · rintro ⟨token, htoken, hname⟩
    exact ⟨token, htoken, hname.resolve_right (hall token htoken)⟩
  · rintro ⟨token, htoken, rfl⟩
    exact ⟨token, htoken, .inl rfl⟩

namespace Server

/-- Subscribe to what a token list names. -/
def add (rule : CustomRule) (s : Server) (tokens : List Text) : Server :=
  { s with
    types := s.types ∪ listedTypes rule.onEvent tokens
    subclasses := s.subclasses ∪ listedSubclasses tokens }

/-- Drop what a token list names. -/
def remove (rule : CustomRule) (s : Server) (tokens : List Text) : Server :=
  { s with
    types := s.types \ listedTypes rule.onNix tokens
    subclasses := s.subclasses \ listedSubclasses tokens }

theorem remove_nil (rule : CustomRule) (s : Server) : s.remove rule [] = s := by
  simp [remove]

theorem run_append (rule : CustomRule) (s : Server) (left right : List EslCommand) :
    s.run rule (left ++ right) = (s.run rule left).run rule right :=
  List.foldl_append

theorem run_applyFilters (rule : CustomRule) (s : Server) (filters : List (Text × Text)) :
    s.run rule (applyFilters filters) = { s with filters := s.filters ++ filters } := by
  induction filters generalizing s with
  | nil => simp [applyFilters, run]
  | cons entry filters ih =>
      have hstep : s.run rule (applyFilters (entry :: filters)) =
          (s.step rule (.filter entry.1 entry.2)).run rule (applyFilters filters) := rfl
      rw [hstep, ih]
      simp [step]

theorem run_sendSubscriptionEvents (rule : CustomRule) (s : Server) (sub : EventSubscription) :
    s.run rule (sendSubscriptionEvents sub) = s.add rule sub.eventTokens := by
  rw [sendSubscriptionEvents, EventSubscription.toEventString]
  by_cases hnone : sub.eventTokens = []
  · simp [hnone, run, add]
  · rw [if_neg hnone]
    have hrun : s.run rule [EslCommand.events sub.format.asStr.toList
        ([' '].intercalate sub.eventTokens)] =
          s.add rule (spaceTokens ([' '].intercalate sub.eventTokens)) := rfl
    rw [hrun, spaceTokens_intercalate sub.isToken_eventTokens]

/-- A `nixevent` of joined tokens drops what they name. -/
theorem step_nixEvent (rule : CustomRule) (s : Server) {tokens : List Text}
    (h : ∀ token ∈ tokens, IsToken token) :
    s.step rule (.nixEvent ([' '].intercalate tokens)) = s.remove rule tokens := by
  have hstep : s.step rule (.nixEvent ([' '].intercalate tokens)) =
      s.remove rule (spaceTokens ([' '].intercalate tokens)) := rfl
  rw [hstep, spaceTokens_intercalate h]

end Server

/-- The state a subscription leaves on a fresh server, in closed form. -/
theorem subscribed_eq (rule : CustomRule) (sub : EventSubscription) :
    subscribed rule sub =
      ⟨listedTypes rule.onEvent sub.eventTokens, listedSubclasses sub.eventTokens,
        sub.filters⟩ := by
  rw [subscribed, applySubscription, Server.run_append, Server.run_applyFilters,
    Server.run_sendSubscriptionEvents]
  simp [Server.add, Server.fresh]

/-! ### The dropped lists -/

/-- One `nixevent` for a token list; nothing is sent for an empty one. -/
def nixCommands (tokens : List Text) : List EslCommand :=
  if tokens = [] then [] else [.nixEvent ([' '].intercalate tokens)]

theorem nixeventTypes_eq (removedTypes : List EslEventType) :
    nixeventTypes removedTypes =
      nixCommands (orderEventTokens (removedTypes.map fun eventType => eventType.asStr.toList)
        []) := by
  have hempty : ∀ names : List Text, orderEventTokens names [] = [] ↔ names = [] := by
    intro names
    constructor
    · intro htokens
      cases names with
      | nil => rfl
      | cons name names =>
          by_cases hcustom : isCustomToken name = true
          · simp [orderEventTokens, hcustom] at htokens
          · simp only [orderEventTokens, List.filter_cons_of_pos, hcustom,
              Bool.not_false] at htokens
            split at htokens
            · cases htokens
            · cases htokens
    · rintro rfl
      rfl
  rw [nixeventTypes, nixCommands]
  simp only [hempty, List.map_eq_nil_iff]

theorem nixeventStrDiff_nil (old new : List Text) :
    nixeventStrDiff old new [] = nixCommands (strDiff old new) := rfl

theorem nixeventStrDiff_custom (old new : List Text) :
    nixeventStrDiff old new "CUSTOM ".toList =
      nixCommands (orderEventTokens [] (strDiff old new)) := by
  have hprefix : "CUSTOM ".toList = customToken ++ [' '] := rfl
  simp only [nixeventStrDiff]
  cases strDiff old new with
  | nil => rfl
  | cons text texts =>
      have hjoin : [' '].intercalate (customToken :: text :: texts) =
          customToken ++ [' '] ++ [' '].intercalate (text :: texts) := by
        simp [List.intercalate]
      have hordered : orderEventTokens [] (text :: texts) = customToken :: text :: texts := rfl
      rw [hordered, nixCommands, if_neg (List.cons_ne_nil _ _), if_neg (List.cons_ne_nil _ _),
        hjoin, hprefix]

/-- The token lists that are dropped, the types in the order they are iterated. -/
def droppedLists (old new : EventSubscription) (removedTypes : List EslEventType) :
    List (List Text) :=
  [orderEventTokens (removedTypes.map fun eventType => eventType.asStr.toList) [],
    strDiff old.rawEvents new.rawEvents,
    orderEventTokens [] (strDiff old.customSubclasses new.customSubclasses)]

theorem resubscribeFrom_eq (old new : EventSubscription) (removedTypes : List EslEventType) :
    resubscribeFrom old new removedTypes =
      sendSubscriptionEvents new ++ (.filterDeleteAll :: applyFilters new.filters ++
        (droppedLists old new removedTypes).flatMap nixCommands) := by
  rw [resubscribeFrom, nixeventTypes_eq, nixeventStrDiff_nil, nixeventStrDiff_custom]
  simp [droppedLists]

theorem isToken_droppedLists (old new : EventSubscription) (removedTypes : List EslEventType) :
    ∀ tokens ∈ droppedLists old new removedTypes, ∀ token ∈ tokens, IsToken token := by
  intro tokens htokens
  simp only [droppedLists, List.mem_cons, List.not_mem_nil, or_false] at htokens
  rcases htokens with rfl | rfl | rfl
  · refine isToken_orderEventTokens ?_ (List.forall_mem_nil _)
    intro name hname
    obtain ⟨eventType, -, rfl⟩ := List.mem_map.mp hname
    exact isToken_asStr eventType
  · exact isToken_strDiff old.isToken_raw
  · exact isToken_orderEventTokens (List.forall_mem_nil _) (isToken_strDiff old.isToken_subclass)

theorem typeTokens_orderEventTokens (names subclasses : List Text) :
    typeTokens (orderEventTokens names subclasses) =
      names.filter fun name => !isCustomToken name := by
  have hcustom : isCustomToken customToken = true := by decide
  have hkept : ∀ name ∈ names.filter (fun name => !isCustomToken name),
      (!isCustomToken name) = true := fun name hname => (List.mem_filter.mp hname).2
  simp only [orderEventTokens, typeTokens]
  split
  · rw [List.takeWhile_append_of_pos hkept]
    simp [hcustom]
  · exact List.takeWhile_eq_self_iff.mpr hkept

theorem mem_orderEventTokens_custom (names : List Text) :
    (∃ token ∈ orderEventTokens names [], isCustomToken token = true) ↔
      ∃ name ∈ names, isCustomToken name = true := by
  have hcustom : isCustomToken customToken = true := by decide
  simp only [orderEventTokens, List.isEmpty_nil, Bool.not_true, Bool.or_false]
  by_cases hany : names.any isCustomToken = true
  · rw [if_pos hany]
    refine iff_of_true ⟨customToken, by simp, hcustom⟩ ?_
    simpa using hany
  · rw [if_neg hany]
    constructor
    · rintro ⟨token, htoken, hcustom⟩
      exact ⟨token, List.mem_of_mem_filter htoken, hcustom⟩
    · rintro ⟨name, hname, hcustom⟩
      exact absurd (List.any_eq_true.mpr ⟨name, hname, hcustom⟩) hany

theorem subclassTokens_orderEventTokens (names subclasses : List Text) :
    subclassTokens (orderEventTokens names subclasses) = subclasses := by
  have hcustom : isCustomToken customToken = true := by decide
  have hkept : ∀ name ∈ names.filter (fun name => !isCustomToken name),
      (!isCustomToken name) = true := fun name hname => (List.mem_filter.mp hname).2
  simp only [orderEventTokens, subclassTokens]
  split
  · rw [List.dropWhile_append_of_pos hkept]
    simp [hcustom]
  · rename_i hnone
    have hempty : subclasses = [] := by
      simp only [Bool.or_eq_true, Bool.not_eq_true', not_or, Bool.not_eq_false,
        List.isEmpty_iff] at hnone
      exact hnone.2
    rw [List.dropWhile_eq_nil_iff.mpr hkept, hempty]
    rfl

/-- What ordered type names list depends on which names there are, not on their order. -/
theorem listedTypes_orderEventTokens_congr (customIsType : Bool) {left right : List Text}
    (h : ∀ name, name ∈ left ↔ name ∈ right) :
    listedTypes customIsType (orderEventTokens left []) =
      listedTypes customIsType (orderEventTokens right []) := by
  simp only [listedTypes, typeTokens_orderEventTokens, mem_orderEventTokens_custom,
    List.mem_filter, h]

/-- The iteration order of the dropped types does not matter to what is dropped. -/
theorem mem_droppedLists {old new : EventSubscription} {removedTypes : List EslEventType}
    (h : IteratesDifference old new removedTypes) (rule : CustomRule) (name : Text) :
    ((∃ tokens ∈ droppedLists old new removedTypes, name ∈ listedTypes rule.onNix tokens) ↔
        name ∈ droppedTypes rule old new) ∧
      ((∃ tokens ∈ droppedLists old new removedTypes, name ∈ listedSubclasses tokens) ↔
        name ∈ droppedSubclasses old new) := by
  have htypes : listedTypes rule.onNix (orderEventTokens (removedTypes.map fun eventType =>
      eventType.asStr.toList) []) = listedTypes rule.onNix (orderEventTokens
        ((old.events.filter (· ∉ new.events)).map fun eventType => eventType.asStr.toList) []) :=
    listedTypes_orderEventTokens_congr rule.onNix fun name => by simp [h.2]
  simp only [droppedTypes, droppedSubclasses, droppedLists, droppedTokens, List.mem_cons,
    List.not_mem_nil, or_false, Set.mem_ofPred_eq, exists_eq_or_imp, exists_eq_left,
    listedSubclasses, subclassTokens_orderEventTokens, htypes, iff_self, and_self]

namespace Server

theorem run_nixCommands (rule : CustomRule) (s : Server) {tokens : List Text}
    (h : ∀ token ∈ tokens, IsToken token) :
    s.run rule (nixCommands tokens) = s.remove rule tokens := by
  rw [nixCommands]
  split
  · rename_i hnone
    rw [hnone, remove_nil]
    rfl
  · exact step_nixEvent rule s h

/-- Dropping several lists drops what any of them names. -/
theorem run_flatMap_nixCommands (rule : CustomRule) (s : Server) {lists : List (List Text)}
    (h : ∀ tokens ∈ lists, ∀ token ∈ tokens, IsToken token) :
    s.run rule (lists.flatMap nixCommands) =
      ⟨s.types \ {name | ∃ tokens ∈ lists, name ∈ listedTypes rule.onNix tokens},
        s.subclasses \ {name | ∃ tokens ∈ lists, name ∈ listedSubclasses tokens},
        s.filters⟩ := by
  induction lists generalizing s with
  | nil => simp [run]
  | cons tokens lists ih =>
      rw [List.flatMap_cons, run_append, run_nixCommands rule s (h tokens List.mem_cons_self),
        ih _ fun other hother => h other (List.mem_cons_of_mem _ hother)]
      simp only [remove, List.exists_mem_cons_iff, Server.mk.injEq, and_true]
      refine ⟨?_, ?_⟩
      all_goals
        ext name
        simp only [Set.mem_sdiff, Set.mem_ofPred_eq]
        rw [not_or, and_assoc]

/-- A command keeps a covered subscription covered. -/
def Keeps (rule : CustomRule) (want : Server) (command : EslCommand) : Prop :=
  ∀ s : Server, s.Covers want → (s.step rule command).Covers want

theorem run_covers {rule : CustomRule} {want s : Server} {commands : List EslCommand}
    (hkeeps : ∀ command ∈ commands, Keeps rule want command) (hs : s.Covers want) :
    (s.run rule commands).Covers want := by
  induction commands generalizing s with
  | nil => exact hs
  | cons command commands ih =>
      exact ih (fun other hother => hkeeps other (List.mem_cons_of_mem _ hother))
        (hkeeps command List.mem_cons_self s hs)

theorem keeps_nixCommands {rule : CustomRule} {want : Server} {tokens : List Text}
    (h : ∀ token ∈ tokens, IsToken token)
    (htypes : Disjoint (listedTypes rule.onNix tokens) want.types)
    (hsubclasses : Disjoint (listedSubclasses tokens) want.subclasses) :
    ∀ command ∈ nixCommands tokens, Keeps rule want command := by
  intro command hcommand s hs
  rw [nixCommands] at hcommand
  split at hcommand
  · cases hcommand
  · rw [List.mem_singleton.mp hcommand, step_nixEvent rule s h]
    refine ⟨?_, ?_⟩
    · exact fun name hname => ⟨hs.1 hname, fun hlisted => htypes.le_bot ⟨hlisted, hname⟩⟩
    · exact fun name hname => ⟨hs.2 hname, fun hlisted => hsubclasses.le_bot ⟨hlisted, hname⟩⟩

end Server

/-- Everything behind the first command keeps the new subscription covered. -/
theorem keeps_tail {rule : CustomRule} {old new : EventSubscription}
    {removedTypes : List EslEventType} (horder : IteratesDifference old new removedTypes)
    (h : CleanDiff rule old new) :
    ∀ command ∈ .filterDeleteAll :: applyFilters new.filters ++
        (droppedLists old new removedTypes).flatMap nixCommands,
      Server.Keeps rule (subscribed rule new) command := by
  intro command hcommand
  rcases List.mem_append.mp hcommand with hcommand | hcommand
  · rcases List.mem_cons.mp hcommand with rfl | hcommand
    · exact fun s hs => hs
    · obtain ⟨entry, -, rfl⟩ := List.mem_map.mp hcommand
      exact fun s hs => hs
  · obtain ⟨tokens, htokens, hcommand⟩ := List.mem_flatMap.mp hcommand
    refine Server.keeps_nixCommands (isToken_droppedLists old new removedTypes tokens htokens)
      ?_ ?_ command hcommand
    · rw [subscribed_eq, Set.disjoint_left]
      intro name hname hwanted
      have hdropped := (mem_droppedLists horder rule name).1.mp ⟨tokens, htokens, hname⟩
      exact Set.disjoint_left.mp h.types_disjoint hdropped hwanted
    · rw [subscribed_eq, Set.disjoint_left]
      intro name hname hwanted
      have hdropped := (mem_droppedLists horder rule name).2.mp ⟨tokens, htokens, hname⟩
      exact Set.disjoint_left.mp h.subclasses_disjoint hdropped hwanted

/-- The state a resubscription ends in: both subscriptions, less what is dropped, and the new
filters. -/
theorem run_resubscribeFrom {rule : CustomRule} {old new : EventSubscription}
    {removedTypes : List EslEventType} (horder : IteratesDifference old new removedTypes) :
    (subscribed rule old).run rule (resubscribeFrom old new removedTypes) =
      ⟨(listedTypes rule.onEvent old.eventTokens ∪ listedTypes rule.onEvent new.eventTokens) \
          droppedTypes rule old new,
        (listedSubclasses old.eventTokens ∪ listedSubclasses new.eventTokens) \
          droppedSubclasses old new,
        new.filters⟩ := by
  have hfilters : ∀ s : Server, s.run rule (.filterDeleteAll :: applyFilters new.filters) =
      { s with filters := new.filters } := by
    intro s
    have hstep : s.run rule (.filterDeleteAll :: applyFilters new.filters) =
        ({ s with filters := [] } : Server).run rule (applyFilters new.filters) := rfl
    rw [hstep, Server.run_applyFilters]
    simp
  have htypes : {name | ∃ tokens ∈ droppedLists old new removedTypes,
      name ∈ listedTypes rule.onNix tokens} = droppedTypes rule old new :=
    Set.ext fun name => (mem_droppedLists horder rule name).1
  have hsubclasses : {name | ∃ tokens ∈ droppedLists old new removedTypes,
      name ∈ listedSubclasses tokens} = droppedSubclasses old new :=
    Set.ext fun name => (mem_droppedLists horder rule name).2
  rw [resubscribeFrom_eq, Server.run_append, Server.run_append, hfilters,
    Server.run_sendSubscriptionEvents, subscribed_eq,
    Server.run_flatMap_nixCommands rule _ (isToken_droppedLists old new removedTypes), htypes,
    hsubclasses]
  rfl

/-- **A resubscription reaches its target without a gap exactly when the difference is clean.** -/
theorem resubscribe_iff_cleanDiff (rule : CustomRule) (old new : EventSubscription)
    (removedTypes : List EslEventType) (horder : IteratesDifference old new removedTypes) :
    ReachesWithoutGap rule old new (resubscribeFrom old new removedTypes) ↔
      CleanDiff rule old new := by
  constructor
  · rintro ⟨-, hfinal⟩
    rw [run_resubscribeFrom horder, subscribed_eq, Server.mk.injEq] at hfinal
    obtain ⟨htypes, hsubclasses, -⟩ := hfinal
    have hclean : ∀ had want dropped : Set Text, (had ∪ want) \ dropped = want →
        Disjoint dropped want ∧ had ⊆ want ∪ dropped := by
      intro had want dropped heq
      refine ⟨Set.disjoint_left.mpr fun name hdropped hwanted => ?_, fun name hhad => ?_⟩
      · rw [← heq] at hwanted
        exact hwanted.2 hdropped
      · by_cases hdropped : name ∈ dropped
        · exact .inr hdropped
        · refine .inl ?_
          rw [← heq]
          exact ⟨.inl hhad, hdropped⟩
    exact ⟨(hclean _ _ _ htypes).1, (hclean _ _ _ hsubclasses).1, (hclean _ _ _ htypes).2,
      (hclean _ _ _ hsubclasses).2⟩
  · intro h
    have hback : ∀ had want dropped : Set Text, Disjoint dropped want → had ⊆ want ∪ dropped →
        (had ∪ want) \ dropped = want := by
      intro had want dropped hdisjoint hcovered
      ext name
      constructor
      · rintro ⟨hhad | hwanted, hdropped⟩
        · exact (hcovered hhad).resolve_right hdropped
        · exact hwanted
      · exact fun hwanted => ⟨.inr hwanted,
          fun hdropped => Set.disjoint_left.mp hdisjoint hdropped hwanted⟩
    refine ⟨?_, ?_⟩
    · intro count hcount hlength
      have htail := keeps_tail horder h
      rw [resubscribeFrom_eq]
      have hsend := Server.run_sendSubscriptionEvents rule (subscribed rule old) new
      rw [sendSubscriptionEvents] at hsend ⊢
      cases hevents : new.toEventString with
      | none =>
          -- Nothing is wanted, so there is nothing to lose.
          have hnone : new.eventTokens = [] := by
            rw [EventSubscription.toEventString] at hevents
            split at hevents
            · assumption
            · cases hevents
          rw [subscribed_eq rule new, hnone]
          simp [Server.Covers]
      | some eventsStr =>
          rw [hevents] at hsend
          obtain ⟨count, rfl⟩ : ∃ more, count = more + 1 := ⟨count - 1, by omega⟩
          rw [List.singleton_append, List.take_succ_cons]
          have hstep : (subscribed rule old).step rule
              (.events new.format.asStr.toList eventsStr) =
                (subscribed rule old).add rule new.eventTokens := hsend
          have hcovered : ((subscribed rule old).add rule new.eventTokens).Covers
              (subscribed rule new) := by
            rw [subscribed_eq rule new]
            exact ⟨Set.subset_union_right, Set.subset_union_right⟩
          rw [← hstep] at hcovered
          show Server.Covers (((subscribed rule old).step rule _).run rule _) _
          exact Server.run_covers
            (fun command hcommand => htail command (List.mem_of_mem_take hcommand)) hcovered
    · rw [run_resubscribeFrom horder, subscribed_eq rule new,
        hback _ _ _ h.types_disjoint h.types_covered,
        hback _ _ _ h.subclasses_disjoint h.subclasses_covered]

/-- A single type subscribed. -/
def heartbeatSubscription : EventSubscription := (EventSubscription.new .plain).event .heartbeat

/-- The same subscription with a second type behind it. -/
def callSubscription : EventSubscription := heartbeatSubscription.event .channelCreate

theorem resubscribe_iff_cleanDiff_drop_channelCreate :
    IteratesDifference callSubscription heartbeatSubscription [.channelCreate] ∧
      ReachesWithoutGap ⟨true, true⟩ callSubscription heartbeatSubscription
        (resubscribeFrom callSubscription heartbeatSubscription [.channelCreate]) := by
  have horder : IteratesDifference callSubscription heartbeatSubscription [.channelCreate] := by
    refine ⟨by decide, fun eventType => ?_⟩
    cases eventType
    all_goals decide
  refine ⟨horder, (resubscribe_iff_cleanDiff ⟨true, true⟩ _ _ _ horder).mpr ?_⟩
  have hdropped : droppedTokens callSubscription heartbeatSubscription =
      [["CHANNEL_CREATE".toList], [], []] := by decide +kernel
  have htypes : droppedTypes ⟨true, true⟩ callSubscription heartbeatSubscription =
      {name | name ∈ ["CHANNEL_CREATE".toList].map Text.toAsciiLowercase} := by
    rw [← listedTypes_of_plain true (by decide +kernel) (by decide +kernel), droppedTypes, hdropped]
    ext name
    simp
  have hsubclasses : droppedSubclasses callSubscription heartbeatSubscription = ∅ := by
    have hnone : listedSubclasses ["CHANNEL_CREATE".toList] = ∅ :=
      listedSubclasses_of_not_custom (by decide +kernel)
    rw [← hnone, droppedSubclasses, hdropped]
    ext name
    simp
  refine ⟨?_, ?_, ?_, ?_⟩
  · rw [htypes, listedTypes_of_plain _ (by decide +kernel) (by decide +kernel), Set.disjoint_left]
    intro name hname
    rw [List.mem_singleton.mp hname]
    decide +kernel
  · rw [hsubclasses]
    exact Set.empty_disjoint _
  · rw [htypes, listedTypes_of_plain _ (by decide +kernel) (by decide +kernel),
      listedTypes_of_plain _ (by decide +kernel) (by decide +kernel)]
    have hnames : ∀ name ∈ callSubscription.eventTokens.map Text.toAsciiLowercase,
        name ∈ heartbeatSubscription.eventTokens.map Text.toAsciiLowercase ∨
          name ∈ ["CHANNEL_CREATE".toList].map Text.toAsciiLowercase := by decide +kernel
    exact hnames
  · rw [listedSubclasses_of_not_custom (by decide +kernel)]
    exact Set.empty_subset _

theorem heartbeat_lost (rule : CustomRule) :
    ¬ ReachesWithoutGap rule (.all .plain) heartbeatSubscription
      (resubscribeFrom (.all .plain) heartbeatSubscription [.all]) := by
  have horder : IteratesDifference (.all .plain) heartbeatSubscription [.all] := by
    refine ⟨by decide, fun eventType => ?_⟩
    cases eventType
    all_goals decide
  have hdropped : "heartbeat".toList ∈ droppedTypes rule (.all .plain) heartbeatSubscription := by
    have htokens : ["ALL".toList] ∈ droppedTokens (.all .plain) heartbeatSubscription := by
      decide +kernel
    have hlisted : "heartbeat".toList ∈ listedTypes rule.onNix ["ALL".toList] :=
      (mem_listedTypes_of_not_custom (by decide +kernel)).mpr
        ⟨_, List.mem_singleton_self _, .inr (by decide +kernel)⟩
    exact ⟨_, htokens, hlisted⟩
  rintro ⟨-, hfinal⟩
  rw [run_resubscribeFrom horder, subscribed_eq, Server.mk.injEq] at hfinal
  have hwanted : "heartbeat".toList ∈ listedTypes rule.onEvent heartbeatSubscription.eventTokens :=
    (mem_listedTypes_of_not_custom (by decide +kernel)).mpr
      ⟨"HEARTBEAT".toList, by decide +kernel, .inl (by decide +kernel)⟩
  rw [← hfinal.1] at hwanted
  exact hwanted.2 hdropped

theorem nixevent_all_drops_heartbeat :
    ¬ ReachesWithoutGap ⟨false, false⟩ (.all .plain) heartbeatSubscription
        (resubscribeFrom (.all .plain) heartbeatSubscription [.all]) ∧
      ¬ ReachesWithoutGap ⟨false, true⟩ (.all .plain) heartbeatSubscription
        (resubscribeFrom (.all .plain) heartbeatSubscription [.all]) ∧
      ¬ ReachesWithoutGap ⟨true, false⟩ (.all .plain) heartbeatSubscription
        (resubscribeFrom (.all .plain) heartbeatSubscription [.all]) ∧
      ¬ ReachesWithoutGap ⟨true, true⟩ (.all .plain) heartbeatSubscription
        (resubscribeFrom (.all .plain) heartbeatSubscription [.all]) :=
  ⟨heartbeat_lost _, heartbeat_lost _, heartbeat_lost _, heartbeat_lost _⟩
end EslTokio
