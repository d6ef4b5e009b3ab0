import SchemaStore.Schema

/-!
# A catalog of schemas

Schemas of an application that share one store: preferences, a session, a ledger, and one with a key
for every further shape. A key may be merged if its values can be objects or arrays.
-/

namespace SchemaStore.Catalog

/-- The two themes. -/
def theme : Labels := ⟨["Light", "Dark"], by decide⟩

/-- A person: a name, an age, and an address if one is known. -/
def profile : Record where
  name := "Profile"
  fields :=
    { list := [⟨"name", .scalar .text, .required⟩, ⟨"age", .scalar (.int .u32), .required⟩,
        ⟨"email", .scalar .text, .nullable⟩]
      distinct := by decide }

/-- A change to a person: the fields that have a value. -/
def patch : Record where
  name := "ProfilePatch"
  fields :=
    { list := [⟨"name", .scalar .text, .omitted⟩, ⟨"age", .scalar (.int .u32), .omitted⟩,
        ⟨"email", .scalar .text, .omitted⟩]
      distinct := by decide }

/-- A point of the plane. -/
def point : Record where
  name := "Point"
  fields :=
    { list := [⟨"x", .scalar (.int .i32), .required⟩, ⟨"y", .scalar (.int .i32), .required⟩]
      distinct := by decide }

/-- The sides of a rectangle. -/
def sides : Fields where
  list := [⟨"w", .scalar (.int .u32), .required⟩, ⟨"h", .scalar (.int .u32), .required⟩]
  distinct := by decide

/-- A figure of one of four sorts. -/
def figure : Choice where
  name := "Figure"
  variants := [⟨"Dot", .unit⟩, ⟨"Circle", .single (.float .double)⟩,
    ⟨"Pair", .tuple [.scalar (.int .i32), .scalar (.int .i32)]⟩, ⟨"Rect", .record sides⟩]
  distinct := by decide

/-- Preferences. -/
def prefs : Schema where
  title := "Prefs"
  decls := [
    ⟨"greeting", .text, false⟩,
    ⟨"mode", .label theme, false⟩,
    ⟨"launches", .int .u64, false⟩,
    ⟨"ratio", .float .double, false⟩,
    ⟨"owner", .record profile, true⟩,
    ⟨"owner.patch", .record patch, true⟩,
    ⟨"recent", .list .text, true⟩,
    ⟨"nickname", .option .text, false⟩,
    ⟨"anything", .json, true⟩,
    ⟨"hits", .int .u64, true⟩]
  distinct := by decide

/-- A session. -/
def session : Schema where
  title := "Session"
  decls := [
    ⟨"session.token", .text, false⟩,
    ⟨"session.scopes", .list .text, true⟩]
  distinct := by decide

/-- A ledger, whose numbers need more than 64 bits. -/
def ledger : Schema where
  title := "Ledger"
  decls := [
    ⟨"ledger.total", .int .u128, false⟩,
    ⟨"ledger.balance", .int .i128, false⟩]
  distinct := by decide

/-- One key for every further shape. -/
def extra : Schema where
  title := "Extra"
  decls := [
    ⟨"flag", .bool, false⟩,
    ⟨"letter", .char, false⟩,
    ⟨"small", .int .i8, false⟩,
    ⟨"tuples", .map (.pair (.int .u8) (.int .u8)) (.int .u8), true⟩,
    ⟨"scores", .map (.scalar .text) (.int .i64), true⟩,
    ⟨"deque", .list (.int .i32), true⟩,
    ⟨"triple", .array 3 (.int .u8), true⟩,
    ⟨"uniq", .set .text, true⟩,
    ⟨"boxed", .list (.option (.int .u8)), true⟩,
    ⟨"figure", .choice figure, true⟩,
    ⟨"doc", .object, true⟩,
    ⟨"lone", .set .text, true⟩,
    ⟨"ключ \"☃\"", .int .u8, false⟩]
  distinct := by decide

/-- A schema without keys. -/
def nothing : Schema where
  title := "Nothing"
  decls := []
  distinct := rfl

/-- The shapes of the values an application exchanges, apart from documents of no declared shape. -/
def shapes : List Shape := [
  .bool, .int .i8, .int .u8, .int .i32, .int .u32, .int .i64, .int .u64, .int .i128, .int .u128,
  .float .single, .float .double, .char, .text, .unit,
  .option .text, .option (.int .u8), .option .bool, .option (.option (.int .u8)),
  .list (.int .u8), .list .text, .list (.float .double), .list (.option (.int .i64)),
  .list (.list (.int .i32)), .list (.record profile), .list (.int .i32),
  .set (.int .i32), .array 3 (.int .u8), .pair (.int .i32) .text,
  .map (.scalar .text) (.int .i64), .map (.scalar (.int .u8)) .text,
  .map (.scalar (.int .i128)) .bool, .map (.scalar .bool) (.int .u8),
  .map (.scalar .char) (.int .u8), .map (.scalar (.label theme)) (.int .u8),
  .map (.pair (.int .u8) (.int .u8)) (.int .u8),
  .object, .record profile, .record patch, .label theme, .record point, .choice figure]

/-- Every schema of the catalog. -/
def schemas : List Schema := [prefs, session, ledger, extra, nothing]

end SchemaStore.Catalog
