import NestedResources.Gate
import NestedResources.Store.Tables

/-!
# A music store

The resources and rows that the command line is demonstrated with: artists, albums, tracks, genres,
playlists and employees. Columns are named like fields, except that the unit price of a track is
stored as `UnitPrice`.
-/
namespace NestedResources.Music

/-! ## Resources -/

def field (name : String) (type : FieldType) : Field := { name, type }

/-- The number of an entity, which the store assigns. -/
def key (name : String) : Field := { name, type := .integer, generated := true }

def named (name : String) (longest : Nat) : Field :=
  { name, rules := [.length (some 1) (some longest)] }

/-- A reference by a column of the same name on both sides. -/
def toOne (name target column inverse : String) : Relationship :=
  { name, target, cardinality := .manyToOne, join := .foreignKey [column] [column],
    inverse := some inverse }

/-- The entities that refer back by a column of the same name. -/
def toMany (name target column inverse : String) : Relationship :=
  { name, target, cardinality := .oneToMany, join := .reverse [column] [column],
    inverse := some inverse }

/-- The association table of playlists and tracks. -/
def playlistTrack : String := "playlist_track"

def artists : Resource where
  name := "artists"
  identity := ["artist_id"]
  fields := [key "artist_id", named "name" 120]
  relationships := [toMany "albums" "albums" "artist_id" "artist"]

def albums : Resource where
  name := "albums"
  identity := ["album_id"]
  fields := [key "album_id", named "title" 160, field "artist_id" .integer]
  relationships := [toOne "artist" "artists" "artist_id" "albums",
    toMany "tracks" "tracks" "album_id" "album"]
  pageCeiling := some 50

def tracks : Resource where
  name := "tracks"
  identity := ["track_id"]
  fields := [
    key "track_id",
    named "name" 200,
    { field "album_id" .integer with optional := true },
    { field "genre_id" .integer with optional := true },
    { field "composer" .string with optional := true },
    { field "milliseconds" .integer with rules := [.range (Binary64.ofInt? 1) none] },
    { field "bytes" .integer with optional := true },
    { field "unit_price" .number with
      storedAs := some "UnitPrice"
      rules := [.range (Binary64.ofInt? 0) (Binary64.ofInt? 100)] }]
  relationships := [
    toOne "album" "albums" "album_id" "tracks",
    toOne "genre" "genres" "genre_id" "tracks",
    { name := "playlists", target := "playlists", cardinality := .manyToMany,
      join := .association playlistTrack "track_id" "playlist_id", inverse := some "tracks" }]
  pageCeiling := some 100

def genres : Resource where
  name := "genres"
  identity := ["genre_id"]
  fields := [key "genre_id", field "name" .string]
  relationships := [toMany "tracks" "tracks" "genre_id" "genre"]

def playlists : Resource where
  name := "playlists"
  identity := ["playlist_id"]
  fields := [key "playlist_id", field "name" .string]
  relationships := [
    { name := "tracks", target := "tracks", cardinality := .manyToMany,
      join := .association playlistTrack "playlist_id" "track_id", inverse := some "playlists" }]

def employees : Resource where
  name := "employees"
  identity := ["employee_id"]
  fields := [
    key "employee_id",
    field "first_name" .string,
    field "last_name" .string,
    { field "title" .string with optional := true },
    { field "email" .string with optional := true, rules := [.email] },
    { field "hire_date" .dateTime with optional := true },
    { field "reports_to" .integer with optional := true },
    { field "notes" .string with optional := true, hidden := true }]
  relationships := [
    { name := "manager", target := "employees", cardinality := .manyToOne,
      join := .foreignKey ["reports_to"] ["employee_id"], inverse := some "reports" },
    { name := "reports", target := "employees", cardinality := .oneToMany,
      join := .reverse ["employee_id"] ["reports_to"], inverse := some "manager" }]

def resources : List Resource := [artists, albums, tracks, genres, playlists, employees]

/-! ## Rows -/

structure Album where
  id : Int
  title : String
  artist : Int

structure Track where
  id : Int
  name : String
  album : Option Int
  genre : Option Int
  composer : Option String
  milliseconds : Int

structure Playlist where
  id : Int
  name : String
  tracks : List Int

structure Employee where
  id : Int
  first : String
  last : String
  title : String
  manager : Option Int
  email : String

def artistRows : List (Int × String) := [
  (1, "AC/DC"),
  (2, "Accept"),
  (3, "Aerosmith"),
  (4, "Alanis Morissette"),
  (5, "Alice In Chains"),
  (6, "Antônio Carlos Jobim"),
  (7, "Apocalyptica"),
  (8, "Audioslave")]

def albumRows : List Album := [
  ⟨1, "For Those About To Rock We Salute You", 1⟩,
  ⟨2, "Balls to the Wall", 2⟩,
  ⟨3, "Restless and Wild", 2⟩,
  ⟨4, "Let There Be Rock", 1⟩,
  ⟨5, "Big Ones", 3⟩,
  ⟨6, "Jagged Little Pill", 4⟩,
  ⟨7, "Facelift", 5⟩,
  ⟨8, "Warner 25 Anos", 6⟩,
  ⟨9, "Plays Metallica By Four Cellos", 7⟩,
  ⟨10, "Audioslave", 8⟩]

def genreRows : List (Int × String) :=
  [(1, "Rock"), (2, "Jazz"), (3, "Metal"), (4, "Alternative & Punk"), (5, "Blues")]

def trackRows : List Track := [
  ⟨1, "For Those About To Rock (We Salute You)", some 1, some 1,
    some "Angus Young, Malcolm Young, Brian Johnson", 343719⟩,
  ⟨2, "Balls to the Wall", some 2, some 1, none, 342562⟩,
  ⟨3, "Fast As a Shark", some 3, some 1,
    some "F. Baltes, S. Kaufman, U. Dirkscneider & W. Hoffman", 230619⟩,
  ⟨4, "Restless and Wild", some 3, some 1,
    some "F. Baltes, R.A. Smith-Diesel, S. Kaufman, U. Dirkscneider & W. Hoffman", 252051⟩,
  ⟨5, "Princess of the Dawn", some 3, some 1, some "Deaffy & R.A. Smith-Diesel", 375418⟩,
  ⟨6, "Put The Finger On You", some 1, some 1,
    some "Angus Young, Malcolm Young, Brian Johnson", 205662⟩,
  ⟨7, "Let's Get It Up", some 1, some 1, some "Angus Young, Malcolm Young, Brian Johnson", 233926⟩,
  ⟨8, "Inject The Venom", some 1, some 1,
    some "Angus Young, Malcolm Young, Brian Johnson", 210834⟩,
  ⟨9, "Go Down", some 4, some 1, some "AC/DC", 331180⟩,
  ⟨10, "Dog Eat Dog", some 4, some 1, some "AC/DC", 215196⟩,
  ⟨11, "Walk On Water", some 5, some 1,
    some "Steven Tyler, Joe Perry, Jack Blades, Tommy Shaw", 295680⟩,
  ⟨12, "Love In An Elevator", some 5, some 1, some "Steven Tyler, Joe Perry", 321828⟩,
  ⟨13, "All I Really Want", some 6, some 4, some "Alanis Morissette & Glenn Ballard", 284891⟩,
  ⟨14, "You Oughta Know", some 6, some 4, some "Alanis Morissette & Glenn Ballard", 249234⟩,
  ⟨15, "We Die Young", some 7, some 1, some "Jerry Cantrell", 152084⟩,
  ⟨16, "Man In The Box", some 7, some 1, some "Jerry Cantrell, Layne Staley", 286641⟩,
  ⟨17, "Desafinado", some 8, some 2, none, 185338⟩,
  ⟨18, "Garota De Ipanema", some 8, some 2, none, 285048⟩,
  ⟨19, "Enter Sandman", some 9, some 3, some "Apocalyptica", 221701⟩,
  ⟨20, "Master Of Puppets", some 9, some 3, some "Apocalyptica", 436453⟩,
  ⟨21, "Cochise", some 10, some 1, some "Audioslave/Chris Cornell", 222380⟩,
  ⟨22, "Show Me How to Live", some 10, some 1, some "Audioslave/Chris Cornell", 277890⟩,
  ⟨23, "Untitled Demo", none, none, none, 61000⟩]

def playlistRows : List Playlist := [
  ⟨1, "Music", [1, 2, 3, 6, 11, 15, 19, 21]⟩,
  ⟨2, "Grunge", [15, 16, 22]⟩,
  ⟨3, "Heavy Metal Classic", [3, 19, 20]⟩,
  ⟨4, "Audiobooks", []⟩]

def employeeRows : List Employee := [
  ⟨1, "Andrew", "Adams", "General Manager", none, "andrew@chinookcorp.com"⟩,
  ⟨2, "Nancy", "Edwards", "Sales Manager", some 1, "nancy@chinookcorp.com"⟩,
  ⟨3, "Jane", "Peacock", "Sales Support Agent", some 2, "jane@chinookcorp.com"⟩,
  ⟨4, "Margaret", "Park", "Sales Support Agent", some 2, "margaret@chinookcorp.com"⟩,
  ⟨5, "Steve", "Johnson", "Sales Support Agent", some 2, "steve@chinookcorp.com"⟩,
  ⟨6, "Michael", "Mitchell", "IT Manager", some 1, "michael@chinookcorp.com"⟩]

/-- What a track costs: 0.99. -/
def unitPrice : Json := .ofOption (fun x => .num (.float x)) (Binary64.ofDecimal? ⟨false, 99, -2⟩)

def artistRecord (row : Int × String) : Record :=
  .ofList [("artist_id", .int row.1), ("name", .str row.2)]

def Album.record (a : Album) : Record :=
  .ofList [("album_id", .int a.id), ("title", .str a.title), ("artist_id", .int a.artist)]

def genreRecord (row : Int × String) : Record :=
  .ofList [("genre_id", .int row.1), ("name", .str row.2)]

def Track.record (t : Track) : Record :=
  .ofList [("track_id", .int t.id), ("name", .str t.name), ("album_id", .ofOption .int t.album),
    ("genre_id", .ofOption .int t.genre), ("composer", .ofOption .str t.composer),
    ("milliseconds", .int t.milliseconds), ("bytes", .int (t.milliseconds * 32)),
    ("UnitPrice", unitPrice)]

def Playlist.record (p : Playlist) : Record :=
  .ofList [("playlist_id", .int p.id), ("name", .str p.name)]

def Employee.record (e : Employee) : Record :=
  .ofList [("employee_id", .int e.id), ("first_name", .str e.first), ("last_name", .str e.last),
    ("title", .str e.title), ("email", .str e.email), ("hire_date", .str "2002-08-14T00:00:00Z"),
    ("reports_to", .ofOption .int e.manager), ("notes", .str ("internal notes for " ++ e.first))]

/-- The key of an entity that has a number. -/
def keyOf (id : Int) : String := (Identity.mk [.int id]).key

/-- The links of a playlist to its tracks. -/
def Playlist.links (p : Playlist) : List Link :=
  p.tracks.map fun track => .ofList [("playlist_id", keyOf p.id), ("track_id", keyOf track)]

/-- The rows of every resource, filed in a schema that has these resources. -/
def seed (schema : Schema) : Except Error Tables := do
  let file (resource : String) (t : Tables) (records : List Record) : Except Error Tables :=
    records.foldlM (fun t record => t.insert schema resource record) t
  let t ← file "artists" .empty (artistRows.map artistRecord)
  let t ← file "albums" t (albumRows.map Album.record)
  let t ← file "genres" t (genreRows.map genreRecord)
  let t ← file "tracks" t (trackRows.map Track.record)
  let t ← file "playlists" t (playlistRows.map Playlist.record)
  let t := (playlistRows.flatMap Playlist.links).foldl (·.putLink playlistTrack ·) t
  file "employees" t (employeeRows.map Employee.record)

/-! ## Gates -/

/-- Staff see themselves and those who report to them. Nobody deletes an employee or writes an email
address. -/
def staffGate : Gate where
  allows := fun _ m _ => m ≠ .delete
  required := fun _ ctx =>
    match (ctx.get? "user").bind Json.int64? with
    | none => some .never
    | some user => some (.or [.equal "employee_id" (.int user), .equal "reports_to" (.int user)])
  permits := fun change _ => change.subject ≠ .field "email"

end NestedResources.Music
