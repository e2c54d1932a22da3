import EslTokio.Event.Event
import EslTokio.HeaderStore

/-!
# Multi-value headers

`push_header` and `unshift_header` of `freeswitch-types/src/event/mod.rs` over the `ARRAY::` values
of `variables/esl_array.rs`: the stored value is parsed, changed and rendered again on every call.

* `EslArray.parse`, `EslEvent.stackHeader` — the array format, and one call.
* `parse_toText` — items without a separator are parsed back from their rendering.
* `Stacked` — what a header holds while calls stack it: nothing, a plain value, or an array.
* **`stackHeader_deque`** — a header under any calls is a bounded deque.
-/

namespace EslTokio

open Library

/-! ### Arrays -/

/-- The most items an array may have. -/
def maxArrayItems : Nat := 4000

/-- What is wrong with an array. -/
inductive EslArrayError where
  | missingPrefix
  | tooManyItems (count max : Nat)
deriving DecidableEq, Repr

/-- The items of an `ARRAY::item1|:item2` value. -/
structure EslArray where
  items : List Text
deriving DecidableEq, Repr

namespace EslArray

/-- What every array value opens with. -/
def arrayHeader : Text := "ARRAY::".toList

/-- What stands between two items. -/
def arraySeparator : Text := ['|', ':']

/-- Parse an array value. -/
def parse (text : Text) : Except EslArrayError EslArray :=
  match arrayHeader.isPrefixOf? text with
  | none => .error .missingPrefix
  | some body =>
      let items := Text.splitPair '|' ':' body
      if maxArrayItems < items.length then .error (.tooManyItems items.length maxArrayItems)
      else .ok ⟨items⟩

/-- Append an item. -/
def push (array : EslArray) (value : Text) : EslArray := ⟨array.items ++ [value]⟩

/-- Prepend an item. -/
def unshift (array : EslArray) (value : Text) : EslArray := ⟨value :: array.items⟩

/-- The wire form of an array. -/
def toText (array : EslArray) : Text := arrayHeader ++ arraySeparator.intercalate array.items

end EslArray

/-! ### Stacking a header -/

namespace EslEvent

/-- Put a value to the items of a header: the first one is stored plain, and a plain one becomes the
only item of an array. -/
def stackHeader (event : EslEvent) (name value : Text) (op : EslArray → Text → EslArray) :
    Except EslArrayError Unit × EslEvent :=
  match event.headerStr name with
  | none => (.ok (), event.setHeader name value)
  | some existing =>
      let stack (array : EslArray) : Except EslArrayError Unit × EslEvent :=
        if maxArrayItems ≤ array.items.length then
          (.error (.tooManyItems array.items.length maxArrayItems), event)
        else (.ok (), event.setHeader name (op array value).toText)
      match EslArray.parse existing with
      | .ok array => stack array
      | .error .missingPrefix => stack ⟨[existing]⟩
      | .error e => (.error e, event)

/-- Append a value to a multi-value header. -/
def pushHeader (event : EslEvent) (name value : Text) : Except EslArrayError Unit × EslEvent :=
  event.stackHeader name value EslArray.push

/-- Prepend a value to a multi-value header. -/
def unshiftHeader (event : EslEvent) (name value : Text) : Except EslArrayError Unit × EslEvent :=
  event.stackHeader name value EslArray.unshift

end EslEvent

/-- A call that stacks a header. -/
inductive StackCall where
  | pushHeader (name value : Text)
  | unshiftHeader (name value : Text)
deriving DecidableEq, Repr

namespace StackCall

/-- The header a call names. -/
def name : StackCall → Text
  | .pushHeader name _ => name
  | .unshiftHeader name _ => name

/-- The value a call brings. -/
def value : StackCall → Text
  | .pushHeader _ value => value
  | .unshiftHeader _ value => value

/-- What a call returns, and the event it leaves. -/
def apply (event : EslEvent) : StackCall → Except EslArrayError Unit × EslEvent
  | .pushHeader name value => event.pushHeader name value
  | .unshiftHeader name value => event.unshiftHeader name value

/-- What a call does to a deque. -/
def onto (items : List Text) : StackCall → List Text
  | .pushHeader _ value => items ++ [value]
  | .unshiftHeader _ value => value :: items

/-- A call under some casing of a name. -/
def Names (name : Text) (call : StackCall) : Prop :=
  Text.toAsciiLowercase call.name = Text.toAsciiLowercase name

theorem length_onto (items : List Text) (call : StackCall) :
    (call.onto items).length = items.length + 1 := by
  cases call with
  | pushHeader other value => simp [onto]
  | unshiftHeader other value => simp [onto]

theorem length_foldl_onto (items : List Text) (calls : List StackCall) :
    (calls.foldl onto items).length = items.length + calls.length := by
  induction calls generalizing items with
  | nil => rfl
  | cons call calls ih =>
      rw [List.foldl_cons, ih, length_onto, List.length_cons]
      omega

end StackCall

/-- What a run of calls returns, and the event it leaves. -/
def runStack (event : EslEvent) : List StackCall → List (Except EslArrayError Unit) × EslEvent
  | [] => ([], event)
  | call :: calls =>
      let later := runStack (call.apply event).2 calls
      ((call.apply event).1 :: later.1, later.2)

/-- The deque that calls describe. -/
def deque (calls : List StackCall) : List Text := calls.foldl StackCall.onto []

/-- A header holds a deque: it is absent, the plain value, or an array that parses to the items. -/
def HoldsDeque (event : EslEvent) (name : Text) : List Text → Prop
  | [] => event.headerStr name = none
  | [value] => event.headerStr name = some value
  | items => ∃ text, event.headerStr name = some text ∧ EslArray.parse text = .ok ⟨items⟩

/-! ### Arrays read back -/

theorem isPrefixOf?_append (before after : Text) :
    before.isPrefixOf? (before ++ after) = some after := by
  induction before with
  | nil => rfl
  | cons c before ih => simp [List.isPrefixOf?, ih]

theorem isPrefixOf?_eq_none {before text : Text} (h : ¬before <+: text) :
    before.isPrefixOf? text = none := by
  induction before generalizing text with
  | nil => exact absurd List.nil_prefix h
  | cons c before ih =>
      cases text with
      | nil => rfl
      | cons d text =>
          by_cases hc : c = d
          · subst hc
            have hlater : ¬before <+: text := fun hopens => h (by simpa using hopens)
            simp [List.isPrefixOf?, ih hlater]
          · simp [List.isPrefixOf?, hc]

/-- **Items without a separator are parsed back from their rendering.** -/
theorem parse_toText {items : List Text} (hne : items ≠ []) (hlength : items.length ≤ maxArrayItems)
    (hclear : ∀ item ∈ items, ¬EslArray.arraySeparator <:+: item) :
    EslArray.parse (EslArray.toText ⟨items⟩) = .ok ⟨items⟩ := by
  have hsplit : Text.splitPair '|' ':' (EslArray.arraySeparator.intercalate items) = items :=
    Text.splitPair_intercalate (by decide) hne hclear
  rw [EslArray.parse, EslArray.toText, isPrefixOf?_append]
  simp only [hsplit]
  rw [if_neg (by omega)]

/-- A value that opens with no marker is no array. -/
theorem parse_plain {value : Text} (h : ¬EslArray.arrayHeader <+: value) :
    EslArray.parse value = .error .missingPrefix := by
  rw [EslArray.parse, isPrefixOf?_eq_none h]

/-! ### What a header holds while it is stacked -/

/-- The stored form of a deque. -/
def stored : List Text → Option Text
  | [] => none
  | [value] => some value
  | items => some (EslArray.toText ⟨items⟩)

/-- A header that calls have stacked: it stores the deque, no item has a separator, and a plain
value does not look like an array. -/
structure Stacked (event : EslEvent) (name : Text) (items : List Text) : Prop where
  aliased : Aliased event.headers
  stores : event.headerStr name = stored items
  clear : ∀ item ∈ items, ¬EslArray.arraySeparator <:+: item
  plain : ∀ value, items = [value] → ¬EslArray.arrayHeader <+: value
  bounded : items.length ≤ maxArrayItems

namespace Stacked

variable {event : EslEvent} {name : Text} {items : List Text}

theorem holdsDeque (h : Stacked event name items) : HoldsDeque event name items := by
  cases items with
  | nil => exact h.stores
  | cons first items =>
      cases items with
      | nil => exact h.stores
      | cons second items => exact ⟨_, h.stores, parse_toText (by simp) h.bounded h.clear⟩

/-- Every casing of a name stores to, and reads from, the entry of the name. -/
theorem headerStr_setHeader (h : Aliased event.headers) (hname : '_' ∉ name) {other : Text}
    (hother : Text.toAsciiLowercase other = Text.toAsciiLowercase name) (value : Text) :
    (event.setHeader other value).headerStr name = some value ∧
    event.headerStr other = event.headerStr name := by
  obtain ⟨-, hsame, -, -⟩ := h.oneEntryPerName name other hname hother.symm
  have hunder : '_' ∉ other := by
    rw [← underscore_mem_lower, hother, underscore_mem_lower]
    exact hname
  exact ⟨(h.oneEntryPerName other name hunder hother).2.2.1 value, hsame.symm⟩

/-- What a call does to a header that is stacked, by how many items it holds. -/
theorem stackHeader (h : Stacked event name items) (hname : '_' ∉ name) {other : Text}
    (hother : Text.toAsciiLowercase other = Text.toAsciiLowercase name) (value : Text)
    (op : EslArray → Text → EslArray) :
    event.stackHeader other value op =
      if items = [] then (.ok (), event.setHeader other value)
      else if items.length < maxArrayItems then
        (.ok (), event.setHeader other (op ⟨items⟩ value).toText)
      else (.error (.tooManyItems maxArrayItems maxArrayItems), event) := by
  have hread := (headerStr_setHeader h.aliased hname hother value).2.trans h.stores
  have hcase : ∀ existing, EslArray.parse existing = .ok ⟨items⟩ ∨
      EslArray.parse existing = .error .missingPrefix ∧ items = [existing] →
      event.headerStr other = some existing →
      event.stackHeader other value op =
        if items.length < maxArrayItems then
        (.ok (), event.setHeader other (op ⟨items⟩ value).toText)
        else (.error (.tooManyItems maxArrayItems maxArrayItems), event) := by
    intro existing hparse hexisting
    have hbounded := h.bounded
    rcases hparse with hparse | ⟨hparse, rfl⟩
    · simp only [EslEvent.stackHeader, hexisting, hparse]
      by_cases hfull : items.length < maxArrayItems
      · rw [if_neg (by omega), if_pos hfull]
      · have hlength : items.length = maxArrayItems := by omega
        rw [if_pos (by omega), if_neg hfull, hlength]
    · simp only [EslEvent.stackHeader, hexisting, hparse]
      rfl
  cases items with
  | nil =>
      rw [EslEvent.stackHeader, hread]
      rfl
  | cons first items =>
      rw [if_neg (by simp)]
      cases items with
      | nil => exact hcase first (.inr ⟨parse_plain (h.plain first rfl), rfl⟩) hread
      | cons second items =>
          exact hcase _ (.inl (parse_toText (by simp) h.bounded h.clear)) hread

/-- Storing the deque with one more item stacks it. -/
theorem setHeader (h : Stacked event name items) (hname : '_' ∉ name) {call : StackCall}
    (hcall : call.Names name) (hclear : ¬EslArray.arraySeparator <:+: call.value)
    (hfirst : items = [] → ¬EslArray.arrayHeader <+: call.value)
    (hroom : items.length < maxArrayItems)
    {text : Text} (htext : stored (call.onto items) = some text) :
    Stacked (event.setHeader call.name text) name (call.onto items) := by
  have hmem : ∀ item ∈ call.onto items, item = call.value ∨ item ∈ items := by
    cases call with
    | pushHeader other value => simp [StackCall.onto, StackCall.value, or_comm]
    | unshiftHeader other value => simp [StackCall.onto, StackCall.value]
  have hlength := call.length_onto items
  refine ⟨h.aliased.insert _ _, ?_, ?_, ?_, by omega⟩
  · rw [htext]
    exact (headerStr_setHeader h.aliased hname hcall text).1
  · intro item hitem
    rcases hmem item hitem with rfl | hitem
    · exact hclear
    · exact h.clear item hitem
  · intro value honly
    have hnil : items = [] := by
      rw [honly, List.length_singleton] at hlength
      exact List.length_eq_zero_iff.mp (by omega)
    rcases hmem value (by simp [honly]) with rfl | hitem
    · exact hfirst hnil
    · exact absurd hitem (by simp [hnil])

/-- **One call stacks its value, or finds the deque full and leaves the event.** -/
theorem apply (h : Stacked event name items) (hname : '_' ∉ name) {call : StackCall}
    (hcall : call.Names name) :
    (items.length < maxArrayItems → ¬EslArray.arraySeparator <:+: call.value →
      (items = [] → ¬EslArray.arrayHeader <+: call.value) →
      ∃ next, call.apply event = (.ok (), next) ∧ Stacked next name (call.onto items)) ∧
    (items.length = maxArrayItems →
      call.apply event = (.error (.tooManyItems maxArrayItems maxArrayItems), event)) := by
  obtain ⟨op, hop, honto⟩ : ∃ op : EslArray → Text → EslArray,
      call.apply event = event.stackHeader call.name call.value op ∧
        (op ⟨items⟩ call.value).items = call.onto items := by
    cases call with
    | pushHeader other value => exact ⟨EslArray.push, rfl, rfl⟩
    | unshiftHeader other value => exact ⟨EslArray.unshift, rfl, rfl⟩
  rw [hop, h.stackHeader hname hcall]
  refine ⟨fun hroom hclear hfirst => ?_, fun hfull => ?_⟩
  · by_cases hnil : items = []
    · refine ⟨_, if_pos hnil, h.setHeader hname hcall hclear hfirst hroom ?_⟩
      subst hnil
      cases call with
      | pushHeader other value => rfl
      | unshiftHeader other value => rfl
    · rw [if_neg hnil, if_pos hroom]
      refine ⟨_, rfl, h.setHeader hname hcall hclear hfirst hroom ?_⟩
      have htext : (op ⟨items⟩ call.value).toText = EslArray.toText ⟨call.onto items⟩ := by
        rw [← honto]
      rw [htext]
      obtain ⟨first, items, rfl⟩ := List.exists_cons_of_ne_nil hnil
      cases call with
      | pushHeader other value =>
          cases items with
          | nil => rfl
          | cons second items => rfl
      | unshiftHeader other value => rfl
  · have hne : items ≠ [] := by
      rintro rfl
      exact absurd hfull (by decide)
    rw [if_neg hne, if_neg (by omega)]

/-- A run of calls stacks its values while there is room, and then changes nothing. -/
theorem runStack (h : Stacked event name items) (hname : '_' ∉ name) {calls : List StackCall}
    (hcalls : ∀ call ∈ calls, call.Names name ∧ ¬EslArray.arraySeparator <:+: call.value)
    (hfirst : items = [] → ∀ call ∈ calls.head?, ¬EslArray.arrayHeader <+: call.value) :
    (EslTokio.runStack event calls).1 =
      List.replicate (min calls.length (maxArrayItems - items.length)) (.ok ()) ++
        List.replicate (calls.length - (maxArrayItems - items.length))
          (.error (.tooManyItems maxArrayItems maxArrayItems)) ∧
    Stacked (EslTokio.runStack event calls).2 name
      ((calls.take (maxArrayItems - items.length)).foldl StackCall.onto items) := by
  induction calls generalizing event items with
  | nil => simpa [EslTokio.runStack] using h
  | cons call calls ih =>
      obtain ⟨⟨hcall, hclear⟩, hlater⟩ := List.forall_mem_cons.mp hcalls
      obtain ⟨hroom, hfull⟩ := h.apply hname hcall
      by_cases hlength : items.length < maxArrayItems
      · obtain ⟨next, hnext, hstacked⟩ := hroom hlength hclear fun hnil => hfirst hnil call rfl
        have honto := call.length_onto items
        have hne : call.onto items = [] → ∀ other ∈ calls.head?,
            ¬EslArray.arrayHeader <+: other.value := by
          intro hnil
          rw [hnil] at honto
          cases honto
        obtain ⟨hresults, hfinal⟩ := ih hstacked hlater hne
        obtain ⟨room, hleft⟩ : ∃ room, maxArrayItems - items.length = room + 1 :=
          ⟨maxArrayItems - items.length - 1, by omega⟩
        have hleft' : maxArrayItems - (call.onto items).length = room := by omega
        rw [hleft'] at hresults hfinal
        rw [EslTokio.runStack, hnext, hleft, List.take_succ_cons, List.foldl_cons]
        refine ⟨?_, hfinal⟩
        dsimp only
        rw [hresults, List.length_cons, Nat.add_min_add_right, List.replicate_succ,
          List.cons_append, Nat.add_sub_add_right]
      · have hbounded := h.bounded
        have hzero : maxArrayItems - items.length = 0 := by omega
        have hnil : items = [] → ∀ other ∈ calls.head?, ¬EslArray.arrayHeader <+: other.value := by
          rintro rfl
          exact absurd hlength (by decide)
        obtain ⟨hresults, hfinal⟩ := ih h hlater hnil
        rw [hzero] at hresults hfinal ⊢
        rw [EslTokio.runStack, hfull (by omega)]
        refine ⟨?_, hfinal⟩
        dsimp only
        rw [hresults]
        simp [List.replicate_succ]

end Stacked

/-! ### The deque -/

/-- **A stacked header is a bounded deque.** Under any calls, in any casing, the first 4000 succeed
and every later one reports the bound; the header holds the deque of those that succeeded, plain for
one value and an array for more; and a call on a full header leaves the event as it is, whatever its
value. -/
theorem stackHeader_deque (setup : List StoreOp) (event : EslEvent)
    (hevent : event.headers = runStore EslHeaders.new setup) (name : Text) (hname : '_' ∉ name)
    (habsent : event.headerStr name = none) (calls : List StackCall)
    (hcalls : ∀ call ∈ calls, call.Names name ∧ ¬EslArray.arraySeparator <:+: call.value)
    (hfirst : ∀ call ∈ calls.head?, ¬EslArray.arrayHeader <+: call.value) :
    (runStack event calls).1 = List.replicate (min calls.length maxArrayItems) (.ok ()) ++
      List.replicate (calls.length - maxArrayItems)
        (.error (.tooManyItems maxArrayItems maxArrayItems)) ∧
    HoldsDeque (runStack event calls).2 name (deque (calls.take maxArrayItems)) ∧
    (maxArrayItems ≤ calls.length → ∀ call : StackCall, call.Names name →
      call.apply (runStack event calls).2 =
        (.error (.tooManyItems maxArrayItems maxArrayItems), (runStack event calls).2)) := by
  have haliased : Aliased event.headers := by
    rw [hevent]
    exact Aliased.new.runStore setup
  have hempty : Stacked event name [] :=
    ⟨haliased, habsent, by simp, fun _ honly => absurd honly (by simp), Nat.zero_le _⟩
  obtain ⟨hresults, hstacked⟩ := hempty.runStack hname hcalls fun _ => hfirst
  refine ⟨hresults, hstacked.holdsDeque, fun hlength call hcall => ?_⟩
  refine (hstacked.apply hname hcall).2 ?_
  rw [StackCall.length_foldl_onto, List.length_take, List.length_nil]
  omega

/-- Three calls in three casings, with a value that ends in half a separator and one that looks like
an array. -/
theorem stackHeader_deque_casings :
    HoldsDeque (runStack EslEvent.new [.pushHeader "X-Test".toList "a|".toList,
        .unshiftHeader "x-test".toList "ARRAY::".toList, .pushHeader "X-TEST".toList ":b".toList]).2
      "x-Test".toList ["ARRAY::".toList, "a|".toList, ":b".toList] :=
  (stackHeader_deque [] EslEvent.new rfl "x-Test".toList (by decide) (by decide +kernel) _
    (by
      simp only [List.forall_mem_cons, List.not_mem_nil, false_implies, implies_true, and_true]
      unfold StackCall.Names
      refine ⟨⟨?_, ?_⟩, ⟨?_, ?_⟩, ?_, ?_⟩
      all_goals decide +kernel)
    (by simp only [List.head?_cons, Option.mem_some_iff, forall_eq']; decide)).2.1

end EslTokio
